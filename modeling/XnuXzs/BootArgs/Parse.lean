import XnuXzs.Lib.CString

/-!
# Boot arguments

`PE_parse_boot_argn_internal` and what it calls. Pointers fault behind the terminating zero, and
what is stored at `arg_ptr` is the list of the stores.
-/

namespace XnuXzs.BootArgs

open XnuXzs.Lib List

/-- A store of a byte at a distance from `arg_ptr`. -/
structure Write where
  offset : Nat
  byte : UInt8
  deriving DecidableEq, Repr

def isargsep (c : UInt8) : Bool := c = 0x20 || c = 0 || c = 0x09

def equalSign : UInt8 := 0x3d
def minus : UInt8 := 0x2d
def underscore : UInt8 := 0x5f

def oneString : List UInt8 := [0x31, 0]

/-- `argstrcpy2`, with `i` characters copied. -/
def argstrcpy2 (maxlen : Nat) : (i : Nat) → List UInt8 → Except Fault (List Write)
  | _, [] => .error .overread
  | i, c :: p =>
    if !isargsep c ∧ i < maxlen then do
      let ws ← argstrcpy2 maxlen (i + 1) p
      .ok (⟨i, c⟩ :: ws)
    else .ok [⟨i, 0⟩]

/-- How many bytes `argnumcpy` stores; a three-byte store is a 24-bit field. -/
def numBytes (maxlen : Nat) : Nat :=
  match maxlen with
  | 0 => 0
  | 1 => 1
  | 2 => 2
  | 3 => 3
  | 4 => 4
  | 8 => 8
  | _ => 4

def argnumcpy (val : UInt64) (maxlen : Nat) : List Write :=
  (List.range (numBytes maxlen)).map fun i => ⟨i, (val >>> UInt64.ofNat (8 * i)).toUInt8⟩

/-- What `getval` returns: `NUM` with the value, or `STR`. -/
inductive Value where
  | num (val : UInt64)
  | str
  deriving DecidableEq, Repr

def digit (radix : UInt64) (c : UInt8) : Option UInt64 :=
  if radix ≤ 10 ∧ 0x30 ≤ c ∧ c.toUInt64 ≤ 0x39 - (10 - radix) then some (c - 0x30).toUInt64
  else if radix = 16 ∧ 0x30 ≤ c ∧ c ≤ 0x39 then some (c - 0x30).toUInt64
  else if radix = 16 ∧ 0x61 ≤ c ∧ c ≤ 0x66 then some (c - (0x61 - 10)).toUInt64
  else if radix = 16 ∧ 0x41 ≤ c ∧ c ≤ 0x46 then some (c - (0x41 - 10)).toUInt64
  else none

def suffixFactor (c : UInt8) : Option UInt64 :=
  if c = 0x6b ∨ c = 0x4b then some 1024
  else if c = 0x6d ∨ c = 0x4d then some (1024 * 1024)
  else if c = 0x67 ∨ c = 0x47 then some (1024 * 1024 * 1024)
  else none

/-- The `for` loop of `getval`, and what comes after it. -/
def getvalDigits (radix sign : UInt64) : (intval : UInt64) → List UInt8 → Except Fault Value
  | _, [] => .error .overread
  | intval, c :: s =>
    if isargsep c then .ok (.num (intval * sign))
    else match digit radix c with
      | some d => if d ≥ radix then .ok .str else getvalDigits radix sign (intval * radix + d) s
      | none => match suffixFactor c with
        | some f => do
          let next ← deref s
          if !isargsep next then .ok .str else .ok (.num (intval * (sign * f)))
        | none => .ok .str

/-- `*s - '0'` for a signed character. -/
def charValue (c : UInt8) : UInt64 := UInt64.ofInt (c.toInt8.toInt - 0x30)

/-- `getval` at the characters of a number. -/
def getvalNumber (sign : UInt64) (s : List UInt8) : Except Fault Value := do
  let first ← deref s
  let s := s.tail
  let intval := charValue first
  if intval = 0 then do
    let c ← deref s
    if c = 0x78 then getvalDigits 16 sign intval s.tail
    else if c = 0x62 then getvalDigits 2 sign intval s.tail
    else if 0x30 ≤ c ∧ c ≤ 0x37 then getvalDigits 8 sign (charValue c) s.tail
    else if !isargsep c then .ok .str
    else getvalDigits 10 sign intval s
  else if intval ≥ 10 then .ok .str
  else getvalDigits 10 sign intval s

/-- `getval` with `skip_equal_sign` off. -/
def getval (s : List UInt8) : Except Fault Value := do
  let c ← deref s
  if c = equalSign then do
    let s := s.tail
    let c ← deref s
    if c = minus then getvalNumber (0 - 1) s.tail else getvalNumber 1 s
  else .ok (.num 1)

structure Found where
  found : Bool
  writes : List Write
  deriving DecidableEq

/-- The scan stops, or goes on at the end of the argument at a pointer. -/
inductive Turn where
  | stop (f : Found)
  | gotit (args : List UInt8) (f : Found)

/-- With a positive `max_len` a value is stored; with 0 it is only found. -/
def Found.store (f : Found) (maxLen : Int) (ws : Except Fault (List Write)) : Except Fault Found :=
  if maxLen > 0 then do
    let ws ← ws
    .ok ⟨true, f.writes ++ ws⟩
  else if maxLen = 0 then .ok ⟨true, f.writes⟩
  else .ok f

/-- `force_string ? STR : getval(cp, ...)`. -/
def valueKind (force : Bool) (cp : List UInt8) : Except Fault Value :=
  if force then .ok .str else getval cp

/-- The value of an argument that has been found, from the end of its name on. -/
def storeValue (force : Bool) (maxLen : Int) (cp : List UInt8) (f : Found) :
    Except Fault Found := do
  let kind ← valueKind force cp
  match kind with
  | .num val => f.store maxLen (.ok (argnumcpy val maxLen.toNat))
  | .str => do
    let d ← deref cp
    if d = equalSign then f.store maxLen (argstrcpy2 (maxLen.toNat - 1) 0 cp.tail)
    else f.store maxLen (argstrcpy2 maxLen.toNat 0 oneString)

/-- The body of the `while` loop, up to `gotit`. -/
def turn (name : List UInt8) (maxLen : Int) (force : Bool) (args : List UInt8) (f : Found) :
    Except Fault Turn := do
  let first ← deref args
  let cp ← skipWhile (fun c => !isargsep c && c ≠ equalSign) args
  let c ← deref cp
  let i := args.length - cp.length
  let same ← strncmpEq i args (name ++ [0])
  if !same ∨ i ≠ name.length then .ok (.gotit args f)
  else if first = minus then do
    let ws := if force then argstrcpy2 maxLen.toNat 0 oneString else .ok (argnumcpy 1 maxLen.toNat)
    let f ← f.store maxLen ws
    .ok (.stop f)
  else do
    let cp ← skipWhile (fun c => c ≠ 0 && isargsep c) cp
    let d ← deref cp
    if d = equalSign ∧ c ≠ equalSign then .ok (.gotit cp.tail f)
    else do
      let head ← deref (name ++ [0])
      if head = underscore then do
        let hacklen := if 17 > maxLen then 17 else maxLen
        let f ← f.store maxLen (argstrcpy2 (hacklen.toNat - 1) 0 cp.tail)
        .ok (.stop f)
      else do
        let f ← storeValue force maxLen cp f
        .ok (.gotit args f)

def parseLoop (name : List UInt8) (maxLen : Int) (force : Bool) :
    (fuel : Nat) → List UInt8 → Found → Except Fault Found
  | 0, _, _ => .error .hang
  | fuel + 1, args, f => do
    let c ← deref args
    if c = 0 then .ok f
    else do
      let next ← turn name maxLen force args f
      match next with
      | .stop f => .ok f
      | .gotit args f => do
        let args ← skipWhile (fun c => !isargsep c) args
        let args ← skipWhile (fun c => c ≠ 0 && isargsep c) args
        parseLoop name maxLen force fuel args f

/-- `PE_parse_boot_argn_internal` on `args`, with a turn more than it has characters. -/
def parseBootArgn (args name : List UInt8) (maxLen : Int) (force : Bool) : Except Fault Found := do
  let p := args ++ [0]
  let c ← deref p
  if c = 0 then .ok ⟨false, []⟩
  else if maxLen = -1 then .ok ⟨false, []⟩
  else do
    let p ← skipWhile (fun c => c ≠ 0 && isargsep c) p
    parseLoop name maxLen force (args.length + 1) p ⟨false, []⟩

theorem isargsep_zero : isargsep 0 = true := rfl

variable {p : List UInt8} {maxlen : Nat}

theorem argstrcpy2_safe (h : CStr p) {i : Nat} (hi : i ≤ maxlen) :
    Safely (argstrcpy2 maxlen i p) fun ws => ∀ w ∈ ws, w.offset ≤ maxlen := by
  induction p generalizing i with
  | nil =>
    obtain ⟨s, -, h⟩ := h
    cases s <;> cases h
  | cons c p ih =>
    rw [argstrcpy2]
    split_ifs with hcopy
    · have hc : c ≠ 0 := by
        rintro rfl
        exact absurd hcopy.1 (by decide)
      refine (ih (h.tail hc) hcopy.2).bind fun ws hws => ?_
      exact forall_mem_cons.mpr ⟨hi, hws⟩
    · exact forall_mem_singleton.mpr hi

theorem argstrcpy2_oneString (h : 0 < maxlen) :
    argstrcpy2 maxlen 0 oneString = .ok [⟨0, 0x31⟩, ⟨1, 0⟩] := by
  rw [oneString, argstrcpy2, if_pos ⟨rfl, h⟩, argstrcpy2,
    if_neg (fun hcopy => absurd hcopy.1 (by decide))]
  rfl

theorem numBytes_le (maxlen : Nat) : numBytes maxlen ≤ maxlen := by
  unfold numBytes
  split
  any_goals exact le_refl _
  rename_i h0 h1 h2 h3 _ _
  simp only [imp_false] at h0 h1 h2 h3
  omega

theorem argnumcpy_within (val : UInt64) (maxlen : Nat) :
    ∀ w ∈ argnumcpy val maxlen, w.offset < maxlen := by
  intro w hw
  obtain ⟨i, hi, rfl⟩ := mem_map.mp hw
  exact lt_of_lt_of_le (mem_range.mp hi) (numBytes_le maxlen)

variable {s : List UInt8}

theorem getvalDigits_safe (h : CStr s) (radix sign intval : UInt64) :
    Safely (getvalDigits radix sign intval s) fun _ => True := by
  induction s generalizing intval with
  | nil =>
    obtain ⟨s, -, h⟩ := h
    cases s <;> cases h
  | cons c s ih =>
    rw [getvalDigits]
    split
    · trivial
    rename_i hsep
    have hc : c ≠ 0 := by
      rintro rfl
      exact hsep isargsep_zero
    have htail := h.tail hc
    split
    · split
      · trivial
      · exact ih htail _
    split
    · apply htail.deref.bind
      intro next _
      split <;> trivial
    · trivial

/-- Behind the zero nothing is read: it counts as a digit that is too large. -/
theorem getvalNumber_safe (h : CStr s) (sign : UInt64) :
    Safely (getvalNumber sign s) fun _ => True := by
  rcases h.cases with rfl | ⟨first, t, rfl, -, ht⟩
  · exact trivial
  change Safely (if charValue first = 0 then _ else _) _
  split
  · rcases ht.cases with rfl | ⟨c, u, rfl, -, hu⟩
    · exact getvalDigits_safe cStr_zero 10 sign _
    change Safely (if c = 0x78 then getvalDigits 16 sign _ u
      else if c = 0x62 then getvalDigits 2 sign _ u
      else if 0x30 ≤ c ∧ c ≤ 0x37 then getvalDigits 8 sign _ u else if !isargsep c then .ok .str
      else getvalDigits 10 sign _ (c :: u)) _
    split
    · exact getvalDigits_safe hu ..
    split
    · exact getvalDigits_safe hu ..
    split
    · exact getvalDigits_safe hu ..
    · split
      · trivial
      · exact getvalDigits_safe ht ..
  · split
    · trivial
    · exact getvalDigits_safe ht ..

theorem getval_safe (h : CStr s) : Safely (getval s) fun _ => True := by
  rcases h.cases with rfl | ⟨c, t, rfl, -, ht⟩
  · exact trivial
  change Safely (if c = equalSign then _ else _) _
  split
  · rcases ht.cases with rfl | ⟨d, u, rfl, -, hu⟩
    · exact getvalNumber_safe cStr_zero 1
    change Safely (if d = minus then getvalNumber (0 - 1) u else getvalNumber 1 (d :: u)) _
    split
    · exact getvalNumber_safe hu _
    · exact getvalNumber_safe ht _
  · trivial

/-- How much may be stored: `max_len`, or 17 for a name with an underscore in front. -/
def bound (name : List UInt8) (maxLen : Int) : Nat :=
  if name.head? = some underscore then max 17 maxLen.toNat else maxLen.toNat

def Found.Within (f : Found) (n : Nat) : Prop := ∀ w ∈ f.writes, w.offset < n

/-- An argument of the string begins at `p`. -/
def Argument (s p : List UInt8) : Prop :=
  (∃ pre, s ++ [0] = pre ++ p ∧ ∀ b ∈ pre.getLast?, isargsep b = true) ∧
    ∃ c t, p = c :: t ∧ isargsep c = false

def inName (c : UInt8) : Bool := !isargsep c && c ≠ equalSign
def isBlank (c : UInt8) : Bool := c ≠ 0 && isargsep c

def argName (p : List UInt8) : List UInt8 := p.takeWhile inName
def behindName (p : List UInt8) : List UInt8 := p.dropWhile inName
def behindBlanks (p : List UInt8) : List UInt8 := (behindName p).dropWhile isBlank

/-- No equal sign stands behind the name, nor behind blanks after it. -/
def Bare (p : List UInt8) : Prop := (behindBlanks p).head? ≠ some equalSign

/-- The argument at `p` has the name. With an equal sign behind blanks it is passed over. -/
def Named (name p : List UInt8) : Prop :=
  argName p = name ∧ (Bare p ∨ (behindName p).head? = some equalSign)

/-- The argument at `p` has the name, and its value is the string `1`. -/
def IsOne (name p : List UInt8) : Prop :=
  argName p = name ∧ (name.head? = some minus ∨ name.head? ≠ some underscore ∧ Bare p)

/-- The first argument with the name is the last of the string, and bare. -/
def EndsBare (s name : List UInt8) : Prop :=
  ∃ p, Argument s p ∧ argName p = name ∧ behindBlanks p = [0] ∧
    ∀ q, Argument s q → Named name q → q.length ≤ p.length

/-- No argument begins inside, unless with an equal sign. -/
def Passed (w : List UInt8) : Prop :=
  w.IsChain fun a b => isargsep a = true → isargsep b = true ∨ b = equalSign

variable {name q w : List UInt8} {maxLen : Int} {force : Bool} {f : Found} {args cp : List UInt8}

theorem Found.store_safe (hpos : 0 < maxLen) {ws : Except Fault (List Write)} {n : Nat}
    (hf : f.Within n) (hws : Safely ws fun ws => ∀ w ∈ ws, w.offset < n) :
    Safely (f.store maxLen ws) fun f => f.Within n := by
  rw [Found.store, if_pos hpos]
  refine hws.bind fun ws hws w hw => ?_
  rcases mem_append.mp hw with hold | hnew
  · exact hf w hold
  · exact hws w hnew

theorem oneString_safe (hmax : 2 ≤ maxLen) :
    Safely (argstrcpy2 maxLen.toNat 0 oneString) fun ws => ∀ w ∈ ws, w.offset < maxLen.toNat := by
  rw [argstrcpy2_oneString (by omega)]
  intro w hw
  rcases mem_cons.mp hw with rfl | hw
  · change 0 < maxLen.toNat
    omega
  · rw [mem_singleton.mp hw]
    change 1 < maxLen.toNat
    omega

theorem valueKind_safe (hcp : CStr cp) : Safely (valueKind force cp) fun v =>
    v = .str → force = true ∨ cp.head? = some equalSign := by
  rw [valueKind]
  split
  · rename_i hforce
    exact fun _ => .inl hforce
  by_cases heq : cp.head? = some equalSign
  · exact (getval_safe hcp).mono fun _ _ _ => .inr heq
  rcases hcp.cases with rfl | ⟨c, t, rfl, -, -⟩
  · exact nofun
  · change Safely (if c = equalSign then _ else _) _
    rw [if_neg fun hc => heq (congrArg some hc)]
    exact nofun

theorem storeValue_safe (hpos : 0 < maxLen) (hcp : CStr cp)
    (hforce : force = true → cp.head? ≠ some equalSign → 2 ≤ maxLen) (hf : f.Within maxLen.toNat) :
    Safely (storeValue force maxLen cp f) fun f => f.Within maxLen.toNat := by
  refine (valueKind_safe hcp).bind fun kind hstr => ?_
  cases kind with
  | num val => exact f.store_safe hpos hf (argnumcpy_within val maxLen.toNat)
  | str =>
    apply hcp.deref.bind
    rintro d ⟨t, rfl⟩
    split_ifs with hd
    · have hne : d ≠ 0 := by
        rw [hd]
        decide
      refine f.store_safe hpos hf ((argstrcpy2_safe (hcp.tail hne) (Nat.zero_le _)).mono ?_)
      intro ws hws w hw
      have hle := hws w hw
      omega
    · have hhead : (d :: t).head? ≠ some equalSign := fun hhead => hd (Option.some.inj hhead)
      exact f.store_safe hpos hf (oneString_safe (hforce ((hstr rfl).resolve_right hhead) hhead))

theorem bound_of_plain (h : name.head? ≠ some underscore) :
    bound name maxLen = maxLen.toNat := if_neg h

theorem maxLen_le_bound : maxLen.toNat ≤ bound name maxLen := by
  rw [bound]
  split
  · exact le_max_right _ _
  · exact le_refl _

/-- What a scan has passed and where it stops, for a test that fails there. -/
theorem span_eq {test : UInt8 → Bool} {l : List UInt8} (hp : p = l ++ q)
    (hl : ∀ c ∈ l, test c = true) (hq : ∃ c t, q = c :: t ∧ test c = false) :
    p.takeWhile test = l ∧ p.dropWhile test = q := by
  obtain ⟨c, t, rfl, hc⟩ := hq
  rw [hp, takeWhile_append_of_pos hl, dropWhile_append_of_pos hl,
    takeWhile_cons_of_neg (by simp [hc]),
    dropWhile_cons_of_neg (by simp [hc]), append_nil]
  exact ⟨rfl, rfl⟩

theorem passed_of_all {sep : Bool} (hw : ∀ c ∈ w, isargsep c = sep) :
    Passed w := by
  apply Pairwise.isChain
  refine Pairwise.imp_of_mem ?_ (pairwise_of_forall (R := fun _ _ => True) fun _ _ => trivial)
  intro a b ha hb _ hsep
  rw [hw a ha] at hsep
  exact .inl ((hw b hb).trans hsep)

theorem Passed.append {v : List UInt8} (hw : Passed w) (hv : Passed v)
    (hjoin : (∀ b ∈ w.getLast?, isargsep b = false) ∨ ∀ c ∈ v.head?, isargsep c = true ∨
      c = equalSign) :
    Passed (w ++ v) := by
  refine isChain_append.mpr ⟨hw, hv, fun a ha b hb hsep => ?_⟩
  rcases hjoin with hlast | hhead
  · cases (hlast a ha).symm.trans hsep
  · exact hhead b hb

/-- An argument with the name that is not behind the present one is not before the next. -/
theorem Passed.before {next : List UInt8} (hw : Passed w) (hargs : args = w ++ next)
    (hpart : args <:+ s ++ [0]) (hunder : name.head? = some underscore) (hnot : ¬Named name args)
    (hq : Argument s q) (hnamed : Named name q) (hle : q.length ≤ args.length) :
    q.length ≤ next.length := by
  obtain ⟨⟨pre, hpre, hlast⟩, c, t, rfl, hc⟩ := hq
  obtain ⟨front, hfront⟩ := hpart
  obtain ⟨l, hl⟩ := suffix_of_suffix_length_le ⟨pre, hpre.symm⟩ ⟨front, hfront⟩ hle
  by_contra hlt
  obtain ⟨m, hm⟩ := suffix_of_suffix_length_le ⟨w, hargs.symm⟩ ⟨l, hl⟩ (not_le.mp hlt).le
  obtain ⟨a, m, rfl⟩ : ∃ a m', m = a :: m' := by
    apply exists_cons_of_ne_nil
    rintro rfl
    exact hlt (congrArg length hm).ge
  obtain ⟨rfl, -⟩ := List.cons.inj hm
  have hsplit : w = l ++ a :: m := by
    apply (append_left_inj next).mp
    rw [← hargs, ← hl, ← hm, append_assoc]
  have hnil : l ≠ [] := by
    rintro rfl
    exact hnot (hl ▸ hnamed)
  -- before an argument there is a separator, so that only an equal sign is left
  have hsep : isargsep (l.getLast hnil) = true := by
    have hfronts : pre = front ++ l := by
      apply (append_left_inj (a :: t)).mp
      rw [← hpre, ← hfront, ← hl, append_assoc]
    apply hlast
    rw [hfronts, getLast?_append_of_ne_nil _ hnil, getLast?_eq_getLast_of_ne_nil hnil]
    rfl
  rw [hsplit] at hw
  rcases (isChain_append.mp hw).2.2 _ (getLast?_eq_getLast_of_ne_nil hnil) a rfl hsep with h | rfl
  · cases h.symm.trans hc
  · have hempty : argName (equalSign :: t) = [] := takeWhile_cons_of_neg (by decide)
    rw [← hnamed.1, hempty] at hunder
    cases hunder

/-- No argument begins in the blanks at the start. -/
theorem Argument.behind_blanks {blanks r : List UInt8} (hr : Argument s r)
    (hs : s ++ [0] = blanks ++ q) (hblanks : ∀ c ∈ blanks, isargsep c = true) :
    r.length ≤ q.length := by
  obtain ⟨⟨pre, hpre, -⟩, c, t, rfl, hc⟩ := hr
  by_contra hlt
  obtain ⟨m, hm⟩ := suffix_of_suffix_length_le ⟨blanks, hs.symm⟩ ⟨pre, hpre.symm⟩ (not_le.mp hlt).le
  cases m with
  | nil => exact hlt (congrArg length hm).ge
  | cons a m =>
    obtain ⟨rfl, -⟩ := List.cons.inj hm
    have hfront : blanks = pre ++ a :: m := by
      apply (append_left_inj q).mp
      rw [← hs, hpre, ← hm, append_assoc]
    cases (hblanks a (by simp [hfront])).symm.trans hc

theorem underscore_safe (hpos : 0 < maxLen) (hunder : name.head? = some underscore)
    (hcp : CStr cp) (hne : cp ≠ [0]) (hf : f.Within (bound name maxLen)) :
    Safely (f.store maxLen (argstrcpy2 ((if 17 > maxLen then 17 else maxLen).toNat - 1) 0 cp.tail))
      fun f => f.Within (bound name maxLen) := by
  have hbound : (if 17 > maxLen then 17 else maxLen).toNat - 1 < bound name maxLen := by
    rw [bound, if_pos hunder]
    split <;> omega
  rcases hcp.cases with hzero | ⟨c, t, rfl, -, ht⟩
  · exact absurd hzero hne
  · apply f.store_safe hpos hf
    refine (argstrcpy2_safe ht (Nat.zero_le _)).mono fun ws hws w hw => ?_
    exact lt_of_le_of_lt (hws w hw) hbound

theorem turn_safe (hname : 0 ∉ name) (hpos : 0 < maxLen)
    (hone : force = true → maxLen = 1 → ∀ p, Argument s p → ¬IsOne name p)
    (hbare : name.head? = some underscore → ¬EndsBare s name) (hargs : CStr args)
    (hat : Argument s args) (hfirst : name.head? = some underscore →
      ∀ q, Argument s q → Named name q → q.length ≤ args.length)
    (hf : f.Within (bound name maxLen)) :
    Safely (turn name maxLen force args f) fun
      | .stop f => f.Within (bound name maxLen)
      | .gotit args' f => f.Within (bound name maxLen) ∧ CStr args' ∧
        (name.head? = some underscore → ¬Named name args) ∧
        ∃ l, args = l ++ args' ∧ Passed l ∧ ∀ b ∈ l.getLast?, isargsep b = false := by
  have hnameStr : CStr (name ++ [0]) := ⟨name, hname, rfl⟩
  have hroom (hforced : force = true) (hone' : IsOne name args) : 2 ≤ maxLen := by
    by_contra hless
    exact hone hforced (by omega) args hat hone'
  have hstay : ∃ l, args = l ++ args ∧ Passed l ∧ ∀ b ∈ l.getLast?, isargsep b = false :=
    ⟨[], rfl, .nil, nofun⟩
  apply hargs.deref.bind
  rintro first ⟨t, hfirstChar⟩
  apply (hargs.skipWhile rfl).bind
  rintro cp ⟨hcp, hcpStop, l, hsplit, hl⟩
  obtain ⟨hl', hbehind⟩ : argName args = l ∧ behindName args = cp := span_eq hsplit hl hcpStop
  apply hcp.deref.bind
  rintro c ⟨u, hc⟩
  have hl0 : 0 ∉ l := fun h0 => absurd (hl 0 h0) (by decide)
  have hi : args.length - cp.length = l.length := by
    rw [hsplit, length_append, Nat.add_sub_cancel]
  rw [hi]
  have hcmp := CStr.strncmpEq hl0 hnameStr cp
  rw [← hsplit] at hcmp
  refine hcmp.bind fun same hsame => ?_
  split
  · rename_i hother
    refine ⟨hf, hargs, fun _ hnamed => ?_, hstay⟩
    obtain rfl : l = name := hl'.symm.trans hnamed.1
    simp [hsame.mpr (prefix_append ..)] at hother
  rename_i hmatch
  rw [not_or, not_not] at hmatch
  have hpre := hsame.mp (by simpa using hmatch.1)
  obtain rfl : l = name := (prefix_of_prefix_length_le hpre (prefix_append ..)
    hmatch.2.le).eq_of_length hmatch.2
  split
  · rename_i hminus
    refine Yields.bind (f.store_safe hpos hf ?_) fun f hf => hf
    split_ifs with hforced
    · have hhead : l.head? = some minus := by
        rw [← hl', hfirstChar, hminus]
        rfl
      refine (oneString_safe (hroom hforced ⟨hl', .inl hhead⟩)).mono fun ws hws w hw => ?_
      exact lt_of_lt_of_le (hws w hw) maxLen_le_bound
    · intro w hw
      exact lt_of_lt_of_le (argnumcpy_within _ _ w hw) maxLen_le_bound
  · apply (hcp.skipWhile rfl).bind
    rintro cp' ⟨hcp', hstop', blanks, hblank, hblanks⟩
    have hafter : behindBlanks args = cp' := by
      rw [behindBlanks, hbehind]
      exact (span_eq hblank hblanks hstop').2
    apply hcp'.deref.bind
    rintro d ⟨v, rfl⟩
    split
    · -- an equal sign behind blanks: the scan goes on behind it
      rename_i heq
      obtain ⟨rfl, hne⟩ := heq
      refine ⟨hf, hcp'.tail (by decide), fun _ hnamed => ?_, l ++ blanks ++ [equalSign], ?_, ?_, ?_⟩
      · rcases hnamed.2 with hbareArg | heq
        · exact hbareArg (congrArg head? hafter)
        · rw [hbehind, hc] at heq
          exact hne (Option.some.inj heq)
      · rw [hsplit, hblank]
        simp
      · have hnameChars : ∀ c ∈ l, isargsep c = false := fun c hc => by
          simpa using (Bool.and_eq_true_iff.mp (hl c hc)).1
        have hblankChars : ∀ c ∈ blanks, isargsep c = true := fun c hc =>
          (Bool.and_eq_true_iff.mp (hblanks c hc)).2
        have hfront : Passed (l ++ blanks) := (passed_of_all hnameChars).append
          (passed_of_all hblankChars) (.inl fun b hb => hnameChars b (mem_of_getLast? hb))
        exact hfront.append (.singleton _) (.inr (by simp))
      · intro b hb
        rw [getLast?_concat] at hb
        cases hb
        decide
    · apply hnameStr.deref.bind
      rintro head ⟨w, hhead⟩
      have hunder : head = underscore ↔ l.head? = some underscore := by
        cases l with
        | nil =>
          obtain ⟨rfl, -⟩ := List.cons.inj hhead
          decide
        | cons a l =>
          obtain ⟨rfl, -⟩ := List.cons.inj hhead
          rw [head?_cons, Option.some.injEq]
      split
      · rename_i hh
        have hstart := hunder.mp hh
        refine (underscore_safe hpos hstart hcp' ?_ hf).bind fun f hf => hf
        intro hend
        exact hbare hstart ⟨args, hat, hl', hafter.trans hend, hfirst hstart⟩
      · rename_i hh
        have hplain : l.head? ≠ some underscore := fun h => hh (hunder.mpr h)
        have hforce (hforced : force = true) (hd : (d :: v).head? ≠ some equalSign) : 2 ≤ maxLen :=
          hroom hforced ⟨hl', .inr ⟨hplain, by rwa [Bare, hafter]⟩⟩
        rw [bound_of_plain hplain] at hf ⊢
        refine (storeValue_safe hpos hcp' hforce hf).bind fun f hf => ?_
        exact ⟨hf, hargs, fun h => absurd h hplain, hstay⟩

theorem skip_blanks_safe {pre : List UInt8} (hp : CStr p) (hwhole : s ++ [0] = pre ++ p)
    (hbefore : (∃ c t, p = c :: t ∧ isargsep c = true) ∨ pre = []) :
    Safely (skipWhile (fun c => c ≠ 0 && isargsep c) p) fun q => CStr q ∧
      (q = [0] ∨ Argument s q) ∧ ∃ blanks, p = blanks ++ q ∧ ∀ c ∈ blanks, isargsep c = true := by
  apply (hp.skipWhile rfl).mono
  rintro q ⟨hq, ⟨c, t, rfl, htest⟩, blanks, rfl, hblanks⟩
  have hseps : ∀ c ∈ blanks, isargsep c = true := fun c hc =>
    (Bool.and_eq_true_iff.mp (hblanks c hc)).2
  refine ⟨hq, ?_, blanks, rfl, hseps⟩
  rcases hq.cases with hend | ⟨c', t', heq, hc, -⟩
  · exact .inl hend
  obtain ⟨rfl, rfl⟩ := List.cons.inj heq
  have hstop : isargsep c = false := by simpa [hc] using htest
  refine .inr ⟨⟨pre ++ blanks, by rw [hwhole, append_assoc], ?_⟩, c, t, rfl, hstop⟩
  intro b hb
  cases blanks using List.reverseRecOn with
  | nil =>
    -- no blank was passed, so that nothing is before the argument
    rcases hbefore with ⟨c', t', hc', hsep⟩ | rfl
    · rw [← (List.cons.inj hc').1, hstop] at hsep
      cases hsep
    · cases hb
  | append_singleton blanks b' =>
    rw [← append_assoc, getLast?_concat] at hb
    obtain rfl := Option.some.inj hb
    exact hseps b' (by simp)

theorem parseLoop_safe (hname : 0 ∉ name) (hpos : 0 < maxLen)
    (hone : force = true → maxLen = 1 → ∀ p, Argument s p → ¬IsOne name p)
    (hbare : name.head? = some underscore → ¬EndsBare s name) {fuel : Nat} (hargs : CStr args)
    (hat : args = [0] ∨ Argument s args) (hfirst : name.head? = some underscore →
      ∀ q, Argument s q → Named name q → q.length ≤ args.length)
    (hpart : args <:+ s ++ [0]) (hfuel : args.length ≤ fuel) (hf : f.Within (bound name maxLen)) :
    Safely (parseLoop name maxLen force fuel args f) fun f => f.Within (bound name maxLen) := by
  induction fuel generalizing args f with
  | zero =>
    rcases hargs.cases with rfl | ⟨c, t, rfl, -, -⟩ <;> exact absurd hfuel (by simp)
  | succ fuel ih =>
    rcases hat with rfl | hat
    · exact hf
    obtain ⟨-, c, t, rfl, hc⟩ := id hat
    have hne : c ≠ 0 := by
      rintro rfl
      cases hc
    rw [parseLoop, Lib.deref, ok_bind, if_neg hne]
    refine (turn_safe hname hpos hone hbare hargs hat hfirst hf).bind fun next hnext => ?_
    cases next with
    | stop => exact hnext
    | gotit args' f =>
      obtain ⟨hf, hargs', hnot, l, hl, hpassed, hlast⟩ := hnext
      apply (hargs'.skipWhile rfl).bind
      rintro p ⟨hp, ⟨c', t', rfl, hsep⟩, word, hword, hwordChars⟩
      have hsep' : isargsep c' = true := by simpa using hsep
      have hwhole : c :: t = l ++ word ++ c' :: t' := by rw [hl, hword, append_assoc]
      have hnonsep : ∀ c ∈ word, isargsep c = false := fun c hc => by simpa using hwordChars c hc
      -- something was passed over: the argument itself, or what is before the equal sign
      have hsome : l ++ word ≠ [] := by
        intro hnil
        rw [hnil] at hwhole
        rw [← (List.cons.inj hwhole).1, hc] at hsep'
        cases hsep'
      obtain ⟨pre, hpre⟩ := id hpart
      have hwholes : s ++ [0] = (pre ++ (l ++ word)) ++ c' :: t' := by
        simp only [← hpre, hwhole, append_assoc]
      refine (skip_blanks_safe hp hwholes (.inl ⟨c', t', rfl, hsep'⟩)).bind ?_
      rintro q ⟨hq, hatq, blanks, hblanks, hblankChars⟩
      have hgone : c :: t = (l ++ word ++ blanks) ++ q := by
        simp only [hwhole, hblanks, append_assoc]
      have hshort : q.length < (c :: t).length := by
        have := length_pos_iff.mpr hsome
        rw [hgone, length_append, length_append]
        omega
      have hbetween : Passed (l ++ word ++ blanks) := by
        have hfront := hpassed.append (passed_of_all hnonsep) (.inl hlast)
        refine hfront.append (passed_of_all hblankChars) (.inr fun b hb => ?_)
        exact .inl (hblankChars b (mem_of_head? hb))
      refine ih hq hatq (fun hunder r hr hnamed => ?_) (.trans ⟨_, hgone.symm⟩ hpart) (by omega) hf
      exact hbetween.before hgone hpart hunder (hnot hunder) hr hnamed (hfirst hunder r hr hnamed)

-- `_a` alone: the copy begins behind the zero
example : parseBootArgn [0x5f, 0x61] [0x5f, 0x61] 8 false = .error .overread := rfl

-- a forced string of one byte: the zero behind the `1` is stored outside
example : parseBootArgn [0x61] [0x61] 1 true = .ok ⟨true, [⟨0, 0x31⟩, ⟨1, 0⟩]⟩ := rfl

def aIsFive : List UInt8 := [0x61, 0x3d, 0x35]

end XnuXzs.BootArgs
