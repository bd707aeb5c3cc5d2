import XnuXzs.Xzsfs.Read

/-!
# Paging a file in

`xzsfs_vnop_pagein`, and `xzsfs_read` with which it has to agree. The page list is what
the mapping of it shows from `pl_offset` on, and the ranges that are committed and aborted.
-/

namespace XnuXzs.Xzsfs

open XnuXzs.Lib List

/-- The `while` loop of `xzsfs_read`: `uiomove` appends to what the caller gets. -/
def uioReadLoop (rd : BlockRead) (start : UInt64) (toRead done : Nat) (out : List UInt8) :
    Except Err (List UInt8) :=
  if done < toRead then
    let curPos := (start + UInt64.ofNat done).toNat
    let secOffset := curPos % 512
    let chunk := if 512 - secOffset > toRead - done then toRead - done else 512 - secOffset
    match rd (curPos / 512) with
    | .error e => .error e
    | .ok sec => uioReadLoop rd start toRead (done + chunk) (out ++ bytesAt sec secOffset chunk)
  else .ok out
termination_by toRead - done
decreasing_by
  split <;> omega

/-- `xzsfs_read` into a buffer of `resid` bytes. -/
def xzsfsRead (rd : BlockRead) (node : CoreNode) (foffset resid : Int) : Except Err (List UInt8) :=
  if node.type ≠ typeReg then .error .inval
  else if foffset < 0 ∨ foffset.toNat ≥ node.dataLength.toNat ∨ resid ≤ 0 then .ok []
  else
    let toRead := if (foffset.toNat + resid.toNat) % 2 ^ 64 > node.dataLength.toNat then
      node.dataLength.toNat - foffset.toNat else resid.toNat
    uioReadLoop rd (node.dataOffset + UInt64.ofNat foffset.toNat) toRead 0 []

structure PageRequest where
  fOffset : Int
  size : UInt64
  plOffset : UInt32
  nocommit : Bool

inductive UplOp where
  | commit (off len : UInt32)
  | abort (off len : UInt32)
  deriving DecidableEq, Repr

/-- What a pagein returns and does to the page list, whose memory is seen from `pl_offset` on. -/
structure Paged where
  result : Except Err Unit
  ops : List UplOp
  mem : Nat → UInt8

def eio : Err := .dev 5

/-- `round_page_64`, for pages of `2 ^ shift` bytes. -/
def roundPage (shift x : Nat) : Nat := (x + (2 ^ shift - 1)) % 2 ^ 64 / 2 ^ shift * 2 ^ shift

/-- The range and alignment check. -/
def BadRange (shift : Nat) (node : CoreNode) (req : PageRequest) : Prop :=
  req.fOffset < 0 ∨ req.fOffset.toNat ≥ node.dataLength.toNat ∨ req.fOffset.toNat % 2 ^ shift ≠ 0 ∨
    req.size.toNat % 2 ^ shift ≠ 0 ∨ req.plOffset.toNat % 2 ^ shift ≠ 0

def Overflows (req : PageRequest) : Prop :=
  (req.fOffset.toNat + req.size.toNat) % 2 ^ 64 < req.fOffset.toNat

instance (shift : Nat) (node : CoreNode) (req : PageRequest) :
    Decidable (BadRange shift node req) :=
  inferInstanceAs (Decidable (_ ∨ _))

instance (req : PageRequest) : Decidable (Overflows req) :=
  inferInstanceAs (Decidable (_ < _))

/-- The bytes of the file in the requested range. -/
def ioSize (node : CoreNode) (req : PageRequest) : Nat :=
  let maxSize := node.dataLength.toNat - req.fOffset.toNat
  if req.size.toNat < maxSize then req.size.toNat else maxSize

def roundedSize (shift : Nat) (node : CoreNode) (req : PageRequest) : Nat :=
  let rounded := roundPage shift (ioSize node req)
  if rounded > req.size.toNat then req.size.toNat else rounded

def PageRequest.abortAll (req : PageRequest) : List UplOp :=
  if req.nocommit then [] else [.abort req.plOffset req.size.toUInt32]

/-- The commit of the pages that were filled, and the abort of the rest. -/
def PageRequest.finish (req : PageRequest) (rounded : Nat) : List UplOp :=
  if req.nocommit then []
  else .commit req.plOffset (UInt32.ofNat rounded) ::
    if req.size.toNat > rounded then
      [.abort (req.plOffset + UInt32.ofNat rounded) (UInt32.ofNat (req.size.toNat - rounded))]
    else []

/-- `xzsfs_vnop_pagein`; `mapped` and `unmapped` say whether the calls on the page list succeed,
`before` what it holds. -/
def pagein (rd : BlockRead) (shift : Nat) (node : CoreNode) (req : PageRequest)
    (mapped unmapped : Bool)
    (before : Nat → UInt8) : Paged :=
  if req.size = 0 then ⟨.error .inval, [], before⟩
  else if node.type ≠ typeReg ∨ BadRange shift node req ∨ Overflows req then
    ⟨.error .inval, req.abortAll, before⟩
  else if mapped = false then ⟨.error eio, req.abortAll, before⟩
  else
    let io := ioSize node req
    let rounded := roundedSize shift node req
    let zeroBytes := if rounded > io then rounded - io else 0
    match readInto rd node (UInt64.ofNat req.fOffset.toNat) (UInt64.ofNat io) ⟨before, []⟩ with
    | (.error e, buf) => ⟨.error e, req.abortAll, buf.byte⟩
    | (.ok n, buf) =>
      if n ≠ io then ⟨.error eio, req.abortAll, buf.byte⟩
      else
        let mem := (buf.copy n zeroBytes fun _ => 0).byte
        if unmapped = false then ⟨.error eio, req.abortAll, mem⟩
        else ⟨.ok (), req.finish rounded, mem⟩

def Committed (ops : List UplOp) (x : Nat) : Prop :=
  ∃ off len : UInt32, .commit off len ∈ ops ∧ off.toNat ≤ x ∧ x < off.toNat + len.toNat

def Aborted (ops : List UplOp) (x : Nat) : Prop :=
  ∃ off len : UInt32, .abort off len ∈ ops ∧ off.toNat ≤ x ∧ x < off.toNat + len.toNat

/-- Byte `p` of a file. An image has no byte at 2^64. -/
def fileByte (rd : BlockRead) (node : CoreNode) (p : Nat) : Option UInt8 :=
  if node.dataOffset.toNat + p < 2 ^ 64 then imageByte rd (node.dataOffset.toNat + p) else none

/-- The request is divided at a page: before it the pages are committed and hold the file
and zeros after its end, as `xzsfs_read` returns it; after it they are aborted. -/
structure PagesIn (rd : BlockRead) (shift : Nat) (node : CoreNode) (req : PageRequest) (out : Paged)
    (c : Nat) : Prop where
  aligned : c % 2 ^ shift = 0
  inside : c ≤ req.size.toNat
  committed : ∀ x, Committed out.ops x ↔ req.plOffset.toNat ≤ x ∧ x < req.plOffset.toNat + c
  aborted : ∀ x, Aborted out.ops x ↔
    req.plOffset.toNat + c ≤ x ∧ x < req.plOffset.toNat + req.size.toNat
  file : ∀ k < c, req.fOffset.toNat + k < node.dataLength.toNat →
    fileByte rd node (req.fOffset.toNat + k) = some (out.mem k)
  zeros : ∀ k < c, node.dataLength.toNat ≤ req.fOffset.toNat + k → out.mem k = 0
  read : xzsfsRead rd node req.fOffset c =
    .ok (bytesAt out.mem 0 (min c (node.dataLength.toNat - req.fOffset.toNat)))

def Accepted (shift : Nat) (node : CoreNode) (req : PageRequest) : Prop :=
  req.size ≠ 0 ∧ ¬BadRange shift node req ∧ ¬Overflows req

/-- What is there to commit: nothing if the page list is not mapped and unmapped again. -/
def pagesOf (shift : Nat) (node : CoreNode) (req : PageRequest) (mapped unmapped : Bool) : Nat :=
  if mapped = true ∧ unmapped = true then
    min req.size.toNat ((node.dataLength.toNat - req.fOffset.toNat + (2 ^ shift - 1))
      / 2 ^ shift * 2 ^ shift)
  else 0

/-- The two parts have 32-bit lengths, the second one begins below 2^32, and what is read ends
below 2^64. -/
structure Narrow (shift : Nat) (node : CoreNode) (req : PageRequest) (mapped unmapped : Bool) :
    Prop where
  kept : pagesOf shift node req mapped unmapped < 2 ^ 32
  rest : req.size.toNat - pagesOf shift node req mapped unmapped < 2 ^ 32
  split : pagesOf shift node req mapped unmapped < req.size.toNat →
    req.plOffset.toNat + pagesOf shift node req mapped unmapped < 2 ^ 32
  place : 0 < pagesOf shift node req mapped unmapped →
    node.dataOffset.toNat + req.fOffset.toNat +
      min req.size.toNat (node.dataLength.toNat - req.fOffset.toNat) ≤ 2 ^ 64

theorem uioReadLoop_eq (rd : BlockRead) (start : UInt64) (toRead done : Nat) (out : List UInt8)
    (hle : done ≤ toRead) : uioReadLoop rd start toRead done out =
      (readLoop rd (start + UInt64.ofNat done).toNat (toRead - done)).map (out ++ ·) := by
  induction done, out using uioReadLoop.induct rd start toRead with
  | case1 done out hlt curPos e herr =>
    have herr' : rd ((start + UInt64.ofNat done).toNat / 512) = .error e := herr
    rw [uioReadLoop, if_pos hlt, readLoop, if_neg (by omega)]
    simp only [herr', Except.map]
  | case2 done out hlt curPos secOffset chunk sec hread ih =>
    have hread' : rd ((start + UInt64.ofNat done).toNat / 512) = .ok sec := hread
    have hchunk : chunk = min (512 - curPos % 512) (toRead - done) := by
      change (if 512 - curPos % 512 > toRead - done then toRead - done else 512 - curPos % 512) = _
      split <;> omega
    have hplace : (curPos + chunk) % 2 ^ 64 = (start + UInt64.ofNat (done + chunk)).toNat := by
      rw [UInt64.ofNat_add, ← UInt64.add_assoc, UInt64.toNat_add (start + _), UInt64.toNat_ofNat']
      omega
    have hnext : uioReadLoop rd start toRead done out =
        uioReadLoop rd start toRead (done + chunk) (out ++ bytesAt sec secOffset chunk) := by
      rw [uioReadLoop, if_pos hlt]
      simp only [hread']
      rfl
    have hrest : readLoop rd (start + UInt64.ofNat done).toNat (toRead - done) =
        (readLoop rd ((curPos + chunk) % 2 ^ 64) (toRead - done - chunk)).map
          (bytesAt sec secOffset chunk ++ ·) := by
      rw [readLoop, if_neg (by omega), hchunk]
      simp only [hread']
      rfl
    rw [hnext, ih (by omega), hrest, hplace, Nat.sub_sub]
    cases readLoop rd (start + UInt64.ofNat (done + chunk)).toNat (toRead - (done + chunk)) with
    | error => rfl
    | ok => exact congrArg Except.ok (append_assoc ..)
  | case3 done out hlt =>
    have hnone : toRead - done = 0 := by omega
    rw [uioReadLoop, if_neg hlt, hnone, readLoop, if_pos rfl]
    exact congrArg Except.ok (append_nil out).symm

variable {shift n page : Nat} {node : CoreNode} {req : PageRequest}

theorem add_page_le (hshift : shift ≤ 14) (hn : n < 2 ^ 64) (hpages : n % 2 ^ shift = 0) :
    n + 2 ^ shift ≤ 2 ^ 64 := by
  obtain ⟨q, rfl⟩ := Nat.dvd_of_mod_eq_zero hpages
  have hsplit : 2 ^ 64 = 2 ^ shift * 2 ^ (64 - shift) := by
    rw [← Nat.pow_add]
    congr 1
    omega
  rw [hsplit] at hn ⊢
  have hq := Nat.lt_of_mul_lt_mul_left hn
  exact Nat.mul_le_mul_left _ hq

theorem roundUp_bounds (hpage : 0 < page) (n : Nat) :
    n ≤ (n + (page - 1)) / page * page ∧ (n + (page - 1)) / page * page ≤ n + (page - 1) := by
  have hdiv := Nat.div_add_mod (n + (page - 1)) page
  have hmod := Nat.mod_lt (n + (page - 1)) hpage
  rw [mul_comm] at hdiv
  omega

theorem roundUp_of_dvd (hpage : 0 < page) (h : page ∣ n) :
    (n + (page - 1)) / page * page = n := by
  obtain ⟨q, rfl⟩ := h
  rw [Nat.mul_add_div hpage, Nat.div_eq_of_lt (by omega), add_zero, mul_comm]

theorem ioSize_eq :
    ioSize node req = min req.size.toNat (node.dataLength.toNat - req.fOffset.toNat) := by
  simp only [ioSize]
  split <;> omega

theorem roundPage_eq {x : Nat} (h : x + 2 ^ shift ≤ 2 ^ 64) :
    roundPage shift x = (x + (2 ^ shift - 1)) / 2 ^ shift * 2 ^ shift := by
  have hpage := Nat.two_pow_pos shift
  rw [roundPage, Nat.mod_eq_of_lt (by omega)]

theorem roundedSize_eq (hshift : shift ≤ 14) (hpages : req.size.toNat % 2 ^ shift = 0) :
    roundedSize shift node req = min req.size.toNat
      ((node.dataLength.toNat - req.fOffset.toNat + (2 ^ shift - 1)) / 2 ^ shift * 2 ^ shift) := by
  have hpage := Nat.two_pow_pos shift
  have hroom := add_page_le hshift req.size.toNat_lt hpages
  have hmax := roundUp_bounds hpage (node.dataLength.toNat - req.fOffset.toNat)
  have hwhole := roundUp_of_dvd hpage (Nat.dvd_of_mod_eq_zero hpages)
  have hclamp : roundedSize shift node req =
      min req.size.toNat (roundPage shift (ioSize node req)) := by
    simp only [roundedSize]
    split <;> omega
  rw [hclamp, ioSize_eq, roundPage_eq (by omega)]
  rcases le_total req.size.toNat (node.dataLength.toNat - req.fOffset.toNat) with hle | hle
  · rw [min_eq_left hle, hwhole]
    omega
  · rw [min_eq_right hle]

theorem finish_committed (hcommit : req.nocommit = false) (r x : Nat) :
    Committed (req.finish r) x ↔ req.plOffset.toNat ≤ x ∧ x < req.plOffset.toNat + r % 2 ^ 32 := by
  rw [Committed, PageRequest.finish, hcommit, ← UInt32.toNat_ofNat']
  constructor
  · rintro ⟨off, len, hmem, hx⟩
    have hhead : UplOp.commit off len = .commit req.plOffset (UInt32.ofNat r) := by
      rcases mem_cons.mp hmem with h | h
      · exact h
      · split at h
        · cases mem_singleton.mp h
        · cases h
    obtain ⟨rfl, rfl⟩ := UplOp.commit.inj hhead
    exact hx
  · intro hx
    exact ⟨_, _, mem_cons_self, hx⟩

theorem finish_aborted (hcommit : req.nocommit = false) (r x : Nat) :
    Aborted (req.finish r) x ↔ r < req.size.toNat ∧ (req.plOffset.toNat + r) % 2 ^ 32 ≤ x ∧
        x < (req.plOffset.toNat + r) % 2 ^ 32 + (req.size.toNat - r) % 2 ^ 32 := by
  have hstart : (req.plOffset + UInt32.ofNat r).toNat = (req.plOffset.toNat + r) % 2 ^ 32 := by
    rw [UInt32.toNat_add, UInt32.toNat_ofNat', Nat.add_mod_mod]
  rw [Aborted, PageRequest.finish, hcommit, ← hstart, ← UInt32.toNat_ofNat']
  constructor
  · rintro ⟨off, len, hmem, hx⟩
    rcases mem_cons.mp hmem with h | h
    · cases h
    split_ifs at h with hlt
    · obtain ⟨rfl, rfl⟩ := UplOp.abort.inj (mem_singleton.mp h)
      exact ⟨hlt, hx⟩
    · cases h
  · rintro ⟨hlt, hx⟩
    refine ⟨_, _, mem_cons_of_mem _ ?_, hx⟩
    rw [if_pos hlt]
    exact mem_singleton_self _

/-- Giving everything up does to the range what finishing with nothing does. -/
theorem abortAll_ranges (hcommit : req.nocommit = false) (hsize : 0 < req.size.toNat) (x : Nat) :
    (Committed req.abortAll x ↔ Committed (req.finish 0) x) ∧
      (Aborted req.abortAll x ↔ Aborted (req.finish 0) x) := by
  have hpl := req.plOffset.toNat_lt
  constructor
  · rw [finish_committed hcommit, Committed, PageRequest.abortAll, hcommit]
    constructor
    · rintro ⟨off, len, hmem, -⟩
      cases mem_singleton.mp hmem
    · omega
  · rw [finish_aborted hcommit, Aborted, PageRequest.abortAll,
      hcommit, add_zero, Nat.mod_eq_of_lt hpl,
      Nat.sub_zero, ← UInt64.toNat_toUInt32]
    constructor
    · rintro ⟨off, len, hmem, hx⟩
      obtain ⟨rfl, rfl⟩ := UplOp.abort.inj (mem_singleton.mp hmem)
      exact ⟨hsize, hx⟩
    · rintro ⟨-, hx⟩
      exact ⟨_, _, mem_singleton_self _, hx⟩

/-- The ranges divide the request at `c` exactly when they were made for `c` and none was cut to
32 bits. -/
theorem finish_divides (hcommit : req.nocommit = false) {r c : Nat} (hr : r ≤ req.size.toNat)
    (hc : c ≤ req.size.toNat) :
    ((∀ x, Committed (req.finish r) x ↔ req.plOffset.toNat ≤ x ∧ x < req.plOffset.toNat + c) ∧
      ∀ x, Aborted (req.finish r) x ↔
        req.plOffset.toNat + c ≤ x ∧ x < req.plOffset.toNat + req.size.toNat) ↔
      c = r ∧ r < 2 ^ 32 ∧ req.size.toNat - r < 2 ^ 32 ∧
        (r < req.size.toNat → req.plOffset.toNat + r < 2 ^ 32) := by
  simp only [finish_committed hcommit, finish_aborted hcommit]
  constructor
  · rintro ⟨hcommitted, haborted⟩
    have hkept : c = r % 2 ^ 32 := by
      have h1 := hcommitted (req.plOffset.toNat + r % 2 ^ 32)
      have h2 := hcommitted (req.plOffset.toNat + c)
      omega
    by_cases hlt : r < req.size.toNat
    · have hfirst := haborted (req.plOffset.toNat + c)
      have hend := haborted ((req.plOffset.toNat + r) % 2 ^ 32 + (req.size.toNat - r) % 2 ^ 32)
      omega
    · have hnone := haborted (req.plOffset.toNat + c)
      omega
  · rintro ⟨rfl, hkept, hrest, hsplit⟩
    refine ⟨fun x => ?_, fun x => ?_⟩
    · omega
    · omega

variable {rd : BlockRead} {mapped unmapped : Bool} {before : Nat → UInt8}

theorem accepted_bounds (h : Accepted shift node req) : 0 < req.size.toNat ∧ 0 ≤ req.fOffset ∧
    req.fOffset.toNat < node.dataLength.toNat ∧ req.size.toNat % 2 ^ shift = 0 ∧
    req.fOffset.toNat + req.size.toNat < 2 ^ 64 := by
  obtain ⟨hsize, hrange, hover⟩ := h
  have hpos : req.size.toNat ≠ 0 := fun h => hsize (UInt64.toNat_inj.mp h)
  have hlt := req.size.toNat_lt
  rw [Overflows] at hover
  simp only [BadRange, not_or, not_lt, ge_iff_le, not_le, not_not] at hrange
  obtain ⟨hneg, hend, -, hpages, -⟩ := hrange
  exact ⟨by omega, hneg, hend, hpages, by omega⟩

/-- The block reads that a mapped page list is filled with succeed. -/
def BlocksRead (rd : BlockRead) (node : CoreNode) (req : PageRequest) (mapped : Bool)
    (before : Nat → UInt8) : Prop :=
  mapped = true →
    ∀ e, (readInto rd node (UInt64.ofNat req.fOffset.toNat) (UInt64.ofNat (ioSize node req))
    ⟨before, []⟩).1 ≠ .error e

theorem readInto_request (hreg : node.type = typeReg) (h : Accepted shift node req)
    (hreads : BlocksRead rd node req true before) : ∃ buf,
      readInto rd node (UInt64.ofNat req.fOffset.toNat) (UInt64.ofNat (ioSize node req))
        ⟨before, []⟩ =
        (.ok (ioSize node req), buf) ∧
      readIntoLoop rd (node.dataOffset + UInt64.ofNat req.fOffset.toNat)
        (ioSize node req) 0 ⟨before, []⟩ =
        (.ok (ioSize node req), buf) := by
  obtain ⟨hsize, -, hend, -, hfits⟩ := accepted_bounds h
  have hio := @ioSize_eq node req
  have hoff : (UInt64.ofNat req.fOffset.toNat).toNat = req.fOffset.toNat := toNat_ofNat64 (by omega)
  have hlen' : (UInt64.ofNat (ioSize node req)).toNat = ioSize node req := toNat_ofNat64 (by omega)
  obtain ⟨toRead, -, hstep, hclamp⟩ := @readInto_loop rd node (UInt64.ofNat req.fOffset.toNat)
    (UInt64.ofNat (ioSize node req)) ⟨before, []⟩ hreg (by omega) (by omega)
  have hwanted : toRead = ioSize node req := by
    rw [hclamp.mpr (by omega), wanted, hoff, hlen']
    omega
  rw [hwanted] at hstep
  cases hloop : readIntoLoop rd (node.dataOffset + UInt64.ofNat req.fOffset.toNat)
    (ioSize node req) 0
      ⟨before, []⟩ with
  | mk r buf =>
    cases r with
    | error e => exact absurd (by rw [hstep, hloop]) (hreads rfl e)
    | ok n =>
      obtain ⟨rfl, -⟩ := readIntoLoop_filled (Nat.zero_le _) hloop
      exact ⟨buf, hstep.trans hloop, rfl⟩

/-- A request that is mapped, read and unmapped is finished; every other is given up. -/
theorem pagein_eq (hreg : node.type = typeReg) (h : Accepted shift node req)
    (hreads : BlocksRead rd node req mapped before) :
    (mapped = true ∧ unmapped = true → ∃ buf,
      readIntoLoop rd (node.dataOffset + UInt64.ofNat req.fOffset.toNat)
        (ioSize node req) 0 ⟨before, []⟩ =
        (.ok (ioSize node req), buf) ∧
      pagein rd shift node req mapped unmapped before =
        ⟨.ok (), req.finish (roundedSize shift node req),
          (buf.copy (ioSize node req) (roundedSize shift node req - ioSize node req) fun _ =>
            0).byte⟩) ∧
    (¬(mapped = true ∧ unmapped = true) →
      (pagein rd shift node req mapped unmapped before).ops = req.abortAll) := by
  have hchecks : ¬(node.type ≠ typeReg ∨ BadRange shift node req ∨ Overflows req) := by
    rintro (hne | hbad | hover)
    · exact hne hreg
    · exact h.2.1 hbad
    · exact h.2.2 hover
  cases mapped with
  | false =>
    refine ⟨fun hmap => absurd hmap.1 (by decide), fun _ => ?_⟩
    rw [pagein, if_neg h.1, if_neg hchecks, if_pos rfl]
  | true =>
    obtain ⟨buf, hread, hloop⟩ := readInto_request hreg h hreads
    have hzero : (if roundedSize shift node req > ioSize node req then
        roundedSize shift node req - ioSize node req else 0) =
          roundedSize shift node req - ioSize node req := by
      split <;> omega
    constructor
    · rintro ⟨-, rfl⟩
      refine ⟨buf, hloop, ?_⟩
      rw [pagein, if_neg h.1, if_neg hchecks, if_neg (by decide)]
      simp [hread, hzero]
    intro hnot
    have hunmapped : unmapped = false := by
      cases unmapped with
      | false => rfl
      | true => exact absurd ⟨rfl, rfl⟩ hnot
    rw [pagein, if_neg h.1, if_neg hchecks, if_neg (by decide), hunmapped]
    simp [hread]

theorem pagein_ranges (hshift : shift ≤ 14) (hreg : node.type = typeReg)
    (h : Accepted shift node req) (hcommit : req.nocommit = false)
    (hreads : BlocksRead rd node req mapped before) (x : Nat) :
    (Committed (pagein rd shift node req mapped unmapped before).ops x ↔
      Committed (req.finish (pagesOf shift node req mapped unmapped)) x) ∧
    (Aborted (pagein rd shift node req mapped unmapped before).ops x ↔
      Aborted (req.finish (pagesOf shift node req mapped unmapped)) x) := by
  obtain ⟨hsize, -, -, hpages, -⟩ := accepted_bounds h
  obtain ⟨hdone, hgiven⟩ := @pagein_eq shift node req rd mapped unmapped before hreg h hreads
  by_cases hboth : mapped = true ∧ unmapped = true
  · obtain ⟨buf, -, hout⟩ := hdone hboth
    rw [hout, pagesOf, if_pos hboth, ← roundedSize_eq hshift hpages]
    exact ⟨Iff.rfl, Iff.rfl⟩
  · rw [hgiven hboth, pagesOf, if_neg hboth]
    exact abortAll_ranges hcommit hsize x

theorem pagesOf_bounds (h : Accepted shift node req) :
    pagesOf shift node req mapped unmapped ≤ req.size.toNat ∧
    pagesOf shift node req mapped unmapped % 2 ^ shift = 0 := by
  obtain ⟨-, -, -, hpages, -⟩ := accepted_bounds h
  rw [pagesOf]
  split
  · refine ⟨Nat.min_le_left _ _, ?_⟩
    rcases Nat.le_total req.size.toNat
      ((node.dataLength.toNat - req.fOffset.toNat + (2 ^ shift - 1)) / 2 ^ shift * 2 ^ shift)
        with hle | hle
    · rw [Nat.min_eq_left hle, hpages]
    · rw [Nat.min_eq_right hle, Nat.mul_mod_left]
  · exact ⟨Nat.zero_le _, Nat.zero_mod _⟩

theorem ioSize_le_pages (h : Accepted shift node req) (hboth : mapped = true ∧ unmapped = true) :
    0 < ioSize node req ∧ ioSize node req ≤ pagesOf shift node req mapped unmapped ∧
      min (pagesOf shift node req mapped unmapped) (node.dataLength.toNat - req.fOffset.toNat) =
        ioSize node req := by
  obtain ⟨hsize, -, hend, -, -⟩ := accepted_bounds h
  have hround := roundUp_bounds (Nat.two_pow_pos shift) (node.dataLength.toNat - req.fOffset.toNat)
  rw [ioSize_eq, pagesOf, if_pos hboth]
  omega

/-- `xzsfs_read` of the pages to commit returns what the page list was filled with. -/
theorem xzsfsRead_pages (hreg : node.type = typeReg) (h : Accepted shift node req)
    (hboth : mapped = true ∧ unmapped = true) {buf : Buf}
    (hloop : readIntoLoop rd (node.dataOffset + UInt64.ofNat req.fOffset.toNat)
      (ioSize node req) 0 ⟨before, []⟩ = (.ok (ioSize node req), buf)) :
    xzsfsRead rd node req.fOffset (pagesOf shift node req mapped unmapped) =
      .ok (bytesAt buf.byte 0 (ioSize node req)) := by
  obtain ⟨hsize, hneg, hend, -, hfits⟩ := accepted_bounds h
  obtain ⟨hsome, hle, hmin⟩ := ioSize_le_pages h hboth
  have hpages := (@pagesOf_bounds shift node req mapped unmapped h).1
  have hread := @readIntoLoop_list rd (node.dataOffset + UInt64.ofNat req.fOffset.toNat)
    (ioSize node req) 0
    ⟨before, []⟩ (Nat.zero_le _)
  rw [hloop] at hread
  have hinside : ¬(req.fOffset < 0 ∨ req.fOffset.toNat ≥ node.dataLength.toNat ∨
      (pagesOf shift node req mapped unmapped : Int) ≤ 0) := by
    omega
  have hclamp :
    (if (req.fOffset.toNat + (pagesOf shift node req mapped unmapped : Int).toNat) % 2 ^ 64 >
      node.dataLength.toNat then node.dataLength.toNat - req.fOffset.toNat
      else (pagesOf shift node req mapped unmapped : Int).toNat) = ioSize node req := by
    split <;> omega
  rw [xzsfsRead, if_neg (not_not.mpr hreg), if_neg hinside]
  rw [hclamp, uioReadLoop_eq _ _ _ _ _ (Nat.zero_le _), hread]
  rfl

theorem pagesIn_of_narrow (hshift : shift ≤ 14) (hreg : node.type = typeReg)
    (h : Accepted shift node req) (hcommit : req.nocommit = false)
    (hreads : BlocksRead rd node req mapped before)
    (hnarrow : Narrow shift node req mapped unmapped) :
    PagesIn rd shift node req (pagein rd shift node req mapped unmapped before)
      (pagesOf shift node req mapped unmapped) := by
  obtain ⟨hinside, haligned⟩ := @pagesOf_bounds shift node req mapped unmapped h
  obtain ⟨-, hneg, hend, hpages, hfits⟩ := accepted_bounds h
  have hranges :=
    @pagein_ranges shift node req rd mapped unmapped before hshift hreg h hcommit hreads
  obtain ⟨hcommitted, haborted⟩ := (finish_divides hcommit hinside hinside).mpr
    ⟨rfl, hnarrow.kept, hnarrow.rest, hnarrow.split⟩
  by_cases hboth : mapped = true ∧ unmapped = true
  · obtain ⟨buf, hloop, hout⟩ :=
      (@pagein_eq shift node req rd mapped unmapped before hreg h hreads).1 hboth
    obtain ⟨hsome, hle, hmin⟩ := ioSize_le_pages h hboth
    obtain ⟨-, hfilled⟩ := readIntoLoop_filled (Nat.zero_le _) hloop
    have hrounded : roundedSize shift node req = pagesOf shift node req mapped unmapped := by
      rw [roundedSize_eq hshift hpages, pagesOf, if_pos hboth]
    have hplace := hnarrow.place (by omega)
    have hmem : (pagein rd shift node req mapped unmapped before).mem = (buf.copy (ioSize node req)
        (pagesOf shift node req mapped unmapped - ioSize node req) fun _ => 0).byte := by
      rw [hout, hrounded]
    have hlow : ∀ k < ioSize node req, (pagein rd shift node req mapped unmapped before).mem k =
        buf.byte k := by
      intro k hk
      rw [hmem, Buf.copy]
      exact if_neg (by omega)
    refine ⟨haligned, hinside, fun x => (hranges x).1.trans (hcommitted x),
      fun x => (hranges x).2.trans (haborted x), ?_, ?_, ?_⟩
    · intro k hk hfile
      have hio : k < ioSize node req := by omega
      have hbyte := hfilled.bytes k (Nat.zero_le k) hio
      have hat : (node.dataOffset + UInt64.ofNat req.fOffset.toNat + UInt64.ofNat k).toNat =
          node.dataOffset.toNat + (req.fOffset.toNat + k) := by
        rw [UInt64.toNat_add, UInt64.toNat_add, UInt64.toNat_ofNat', UInt64.toNat_ofNat']
        omega
      rw [hat] at hbyte
      rw [fileByte, if_pos (by omega), hbyte, hlow k hio]
    · intro k hk hfile
      rw [hmem, Buf.copy]
      exact if_pos (by omega)
    · rw [hmin, xzsfsRead_pages hreg h hboth hloop]
      congr 1
      apply bytesAt_congr
      intro k hk
      rw [zero_add, hlow k hk]
  · have hnone : pagesOf shift node req mapped unmapped = 0 := if_neg hboth
    refine ⟨haligned, hinside, fun x => (hranges x).1.trans (hcommitted x),
      fun x => (hranges x).2.trans (haborted x), ?_, ?_, ?_⟩
    · intro k hk
      omega
    · intro k hk
      omega
    · rw [hnone, Nat.zero_min, xzsfsRead, if_neg (not_not.mpr hreg),
        if_pos (.inr (.inr (Int.le_refl 0)))]
      rfl

/-- For every regular file and request that passes the checks and whose block reads succeed, the
committed and aborted ranges divide the request at a page, and the committed pages hold the file and
zeros, as `xzsfs_read` returns it, exactly when both lengths and the start of the aborted range fit
into 32 bits and what is read ends below 2^64. -/
theorem pagein_iff (rd : BlockRead) {shift : Nat} (hshift : shift ≤ 14) {node : CoreNode}
    (hreg : node.type = typeReg) {req : PageRequest} (hcommit : req.nocommit = false)
    (h : Accepted shift node req) (mapped unmapped : Bool) (before : Nat → UInt8)
    (hreads : BlocksRead rd node req mapped before) :
    (∃ c, PagesIn rd shift node req (pagein rd shift node req mapped unmapped before) c) ↔
      Narrow shift node req mapped unmapped := by
  obtain ⟨hinside, -⟩ := @pagesOf_bounds shift node req mapped unmapped h
  have hranges :=
    @pagein_ranges shift node req rd mapped unmapped before hshift hreg h hcommit hreads
  constructor
  · rintro ⟨c, hpages⟩
    obtain ⟨rfl, hkept, hrest, hsplit⟩ := (finish_divides hcommit hinside hpages.inside).mp
      ⟨fun x => (hranges x).1.symm.trans (hpages.committed x),
        fun x => (hranges x).2.symm.trans (hpages.aborted x)⟩
    refine ⟨hkept, hrest, hsplit, fun hsome => ?_⟩
    have hboth : mapped = true ∧ unmapped = true := by
      by_contra hnot
      rw [pagesOf, if_neg hnot] at hsome
      exact lt_irrefl 0 hsome
    -- the last byte of the file that is read has a place in the image
    obtain ⟨hio, hle, hmin⟩ := ioSize_le_pages h hboth
    have hlast := hpages.file (ioSize node req - 1) (by omega) (by omega)
    rw [← ioSize_eq]
    rw [fileByte] at hlast
    split at hlast
    · omega
    · cases hlast
  · exact fun hnarrow => ⟨_, pagesIn_of_narrow hshift hreg h hcommit hreads hnarrow⟩

/-- A request for the beginning of the file of 100 bytes. -/
def fromStart (size : UInt64) : PageRequest := ⟨0, size, 0, false⟩

theorem zeroDisk_reads {node : CoreNode} (hreg : node.type = typeReg) (req : PageRequest)
    (before : Nat → UInt8) : BlocksRead zeroDisk node req true before := by
  intro _ e he
  obtain ⟨n, after, hok⟩ := @readInto_total zeroDisk node (UInt64.ofNat req.fOffset.toNat)
    (UInt64.ofNat (ioSize node req)) ⟨before, []⟩ hreg fun _ => ⟨_, rfl⟩
  rw [hok] at he
  cases he

theorem pagein_two_pages : Accepted 12 hundredBytes (fromStart 8192) ∧
    ∃ c, PagesIn zeroDisk 12 hundredBytes (fromStart 8192)
      (pagein zeroDisk 12 hundredBytes (fromStart 8192) true true fun _ => 1) c := by
  have haccepted : Accepted 12 hundredBytes (fromStart 8192) := ⟨by decide, by decide, by decide⟩
  refine ⟨haccepted, (pagein_iff zeroDisk (by decide) rfl rfl haccepted true true (fun _ => 1)
    (zeroDisk_reads rfl _ _)).mpr ⟨?_, ?_, ?_, ?_⟩⟩ <;> decide

/-- A file of 6144 bytes whose place begins 4096 bytes below 2^64. -/
def wrappedFile : CoreNode := nodeOf (rootAndFile (0 - 4096) 6144 1)

def secondPage : PageRequest := ⟨4096, 4096, 0, false⟩

/-- The layout check takes the file, and its second page is committed with the first bytes of
the image: the file has no bytes there. -/
theorem pagein_wraps : validateSuperblock twoObjects = .ok () ∧
    validateGraph twoObjects (rootAndFile (0 - 4096) 6144) (oneName 0x61) = .ok () ∧
    Accepted 12 wrappedFile secondPage ∧
    ∀ before, BlocksRead zeroDisk wrappedFile secondPage true before ∧
      ¬∃ c, PagesIn zeroDisk 12 wrappedFile secondPage
        (pagein zeroDisk 12 wrappedFile secondPage true true before) c := by
  have haccepted : Accepted 12 wrappedFile secondPage := ⟨by decide, by decide, by decide⟩
  refine ⟨by decide, by decide, haccepted, fun before => ⟨zeroDisk_reads rfl _ _, ?_⟩⟩
  rintro ⟨c, hpages⟩
  have hranges := @pagein_ranges 12 wrappedFile secondPage zeroDisk true true before
    (by decide) rfl haccepted rfl (zeroDisk_reads rfl _ _)
  obtain ⟨rfl, -⟩ := (finish_divides rfl (pagesOf_bounds haccepted).1 hpages.inside).mp
    ⟨fun x => (hranges x).1.symm.trans (hpages.committed x),
      fun x => (hranges x).2.symm.trans (hpages.aborted x)⟩
  -- byte 4096 of the file would be byte 2^64 of the image
  cases hpages.file 0 (by decide) (by decide)

end XnuXzs.Xzsfs
