import XnuXzs.Bpf.Packet

/-!
# The filter machine

`bpf_filter` as steps on the registers, with a record of what each instruction touches. An
accepted program halts within its length; whether it stays inside the packet depends on the
packet.
-/

namespace XnuXzs.Bpf

open List

structure State where
  pc : Nat
  a : UInt32
  x : UInt32
  mem : List UInt32
  deriving DecidableEq, Repr

def State.init : State := ⟨0, 0, 0, List.replicate memWords 0⟩

inductive Event where
  | fetch (i : Nat)
  | scratch (i : Nat)
  | divide (divisor : UInt32)
  | read (l : Loc)
  deriving DecidableEq, Repr

/-- `stuck` is a fetch outside the program. -/
inductive Outcome where
  | next (s : State)
  | ret (v : UInt32)
  | stuck

def Cmp.eval : Cmp → UInt32 → UInt32 → Bool
  | .jeq, a, b => a == b
  | .jgt, a, b => a > b
  | .jge, a, b => a ≥ b
  | .jset, a, b => a &&& b != 0

/-- A shift takes its count modulo 32, as the machine does where C leaves it undefined. -/
def AluOp.eval : AluOp → UInt32 → UInt32 → UInt32
  | .add, a, b => a + b
  | .sub, a, b => a - b
  | .mul, a, b => a * b
  | .div, a, b => a / b
  | .or, a, b => a ||| b
  | .and, a, b => a &&& b
  | .lsh, a, b => a <<< b
  | .rsh, a, b => a >>> b

def State.operand (s : State) (p : Insn) : Src → UInt32
  | .k => p.k
  | .x => s.x

/-- `++pc`, after a jump by `offset`. -/
def State.goto (s : State) (offset : Nat) : State := { s with pc := s.pc + offset + 1 }

abbrev Effect := List Event × Outcome

/-- A load: the bytes read and the registers they give, or `return 0`. -/
def readThen (pkt : Packet) (ls : Option (List Loc)) (f : UInt32 → State) : Effect :=
  match ls with
  | some ls => (ls.map .read, .next (f (pkt.value ls)))
  | none => ([], .ret 0)

/-- An access to `mem[pc->k]` behind its run-time test. -/
def scratchThen (k : UInt32) (s : State) : Effect :=
  if k.toNat ≥ memWords then ([], .ret 0) else ([.scratch k.toNat], .next s)

/-- The body of the `switch`. -/
def exec (pkt : Packet) (wirelen : UInt32) (s : State) (p : Insn) : Effect :=
  let t := s.goto 0
  match decode p.code with
  | none => ([], .ret 0)
  | some .retK => ([], .ret p.k)
  | some .retA => ([], .ret s.a)
  | some (.ldAbs size) => readThen pkt (pkt.loadAbs size p.k) fun v => { t with a := v }
  | some .ldLen => ([], .next { t with a := wirelen })
  | some .ldxLen => ([], .next { t with x := wirelen })
  | some (.ldInd size) => readThen pkt (pkt.loadInd size s.x p.k) fun v => { t with a := v }
  | some .ldxMsh =>
    readThen pkt (pkt.loadAbs .b p.k) fun v => { t with x := (v &&& 0xf) <<< 2 }
  | some .ldImm => ([], .next { t with a := p.k })
  | some .ldxImm => ([], .next { t with x := p.k })
  | some .ldMem => scratchThen p.k { t with a := s.mem.getD p.k.toNat 0 }
  | some .ldxMem => scratchThen p.k { t with x := s.mem.getD p.k.toNat 0 }
  | some .st => scratchThen p.k { t with mem := s.mem.set p.k.toNat s.a }
  | some .stx => scratchThen p.k { t with mem := s.mem.set p.k.toNat s.x }
  | some .ja => ([], .next (s.goto p.k.toNat))
  | some (.jmp cmp src) =>
    ([], .next (s.goto (if cmp.eval s.a (s.operand p src) then p.jt.toNat else p.jf.toNat)))
  | some (.alu .div .x) =>
    if s.x = 0 then ([], .ret 0)
    else ([.divide s.x], .next { t with a := AluOp.div.eval s.a s.x })
  -- a constant divisor is not tested again
  | some (.alu .div .k) => ([.divide p.k], .next { t with a := AluOp.div.eval s.a p.k })
  | some (.alu op src) => ([], .next { t with a := op.eval s.a (s.operand p src) })
  | some .neg => ([], .next { t with a := -s.a })
  | some .tax => ([], .next { t with x := s.a })
  | some .txa => ([], .next { t with a := s.x })

variable (f : List Insn) (pkt : Packet) (wirelen : UInt32)

def step (s : State) : Effect :=
  match f[s.pc]? with
  | some p => (.fetch s.pc :: (exec pkt wirelen s p).1, (exec pkt wirelen s p).2)
  | none => ([.fetch s.pc], .stuck)

/-- At most `n` instructions; the result is `none` if none of them returned. -/
def run : Nat → State → List Event × Option UInt32
  | 0, _ => ([], none)
  | n + 1, s =>
    match step f pkt wirelen s with
    | (es, .next s') => (es ++ (run n s').1, (run n s').2)
    | (es, .ret v) => (es, some v)
    | (es, .stuck) => (es, none)

inductive Reaches (f : List Insn) (pkt : Packet) (wirelen : UInt32) : State → Prop where
  | start : Reaches f pkt wirelen .init
  | next {s s' : State} : Reaches f pkt wirelen s → (step f pkt wirelen s).2 = .next s' →
      Reaches f pkt wirelen s'

/-- `bpf_filter` within `n` instructions; without a program it accepts all. -/
def bpfFilter (pc : Option (List Insn)) (pkt : Packet) (wirelen : UInt32) (n : Nat) :
    List Event × Option UInt32 :=
  match pc with
  | none => ([], some 0xffffffff)
  | some f => run f pkt wirelen n .init

/-- The access is one the program is entitled to. -/
def Event.Ok (len : Nat) (pkt : Packet) : Event → Prop
  | .fetch i => i < len
  | .scratch i => i < memWords
  | .divide d => d ≠ 0
  | .read l => pkt.Holds l

/-- The machine returns, or goes on further down in the program. -/
def Outcome.Forward (len : Nat) (s : State) : Outcome → Prop
  | .next s' => s.pc < s'.pc ∧ s'.pc < len
  | .ret _ => True
  | .stuck => False

/-- The offset that the instruction loads a half word from. -/
def State.half (s : State) (p : Insn) : Option UInt32 :=
  match decode p.code with
  | some (.ldAbs .h) => some p.k
  | some (.ldInd .h) => some (s.x + p.k)
  | _ => none

/-- The instruction loads a half word across the end of the chain's bytes into an empty mbuf. -/
def State.Strays (s : State) (pkt : Packet) (p : Insn) : Prop :=
  ∃ k, s.half p = some k ∧ pkt.StrayAt k.toNat

variable {pkt : Packet} {wirelen maxbuf : UInt32} {len : Nat} {s : State} {p : Insn}
  {f : UInt32 → State} {ls : Option (List Loc)}

theorem readThen_forward (ls : Option (List Loc))
    (hf : ∀ v, (f v).pc = s.pc + 1) (h : s.pc + 1 < len) : (readThen pkt ls f).2.Forward len s := by
  cases ls with
  | none => trivial
  | some ls =>
    simp only [readThen, Outcome.Forward, hf]
    exact ⟨Nat.lt_succ_self _, h⟩

theorem scratchThen_forward (k : UInt32) {t : State} (ht : t.pc = s.pc + 1) (h : s.pc + 1 < len) :
    (scratchThen k t).2.Forward len s := by
  unfold scratchThen
  split
  · trivial
  · simp only [Outcome.Forward, ht]
    exact ⟨Nat.lt_succ_self _, h⟩

theorem exec_forward (hv : ∀ op, decode p.code = some op → OpValid maxbuf len s.pc p op)
    (hlast : bpfClass p.code ≠ 0x06 → s.pc + 1 < len) : (exec pkt wirelen s p).2.Forward len s := by
  cases hop : decode p.code with
  | none => simp [exec, hop, Outcome.Forward]
  | some op =>
    have valid := hv op hop
    have fall (hne : ¬ (op = .retK ∨ op = .retA)) : s.pc + 1 < len := by
      apply hlast
      intro hret
      exact hne (decode_ret hop hret)
    simp only [exec, hop]
    cases op with
    | retK | retA => trivial
    | ldAbs size | ldInd size =>
      exact readThen_forward _ (fun _ => rfl) (fall (by simp))
    | ldxMsh => exact readThen_forward _ (fun _ => rfl) (fall (by simp))
    | ldMem | ldxMem | st | stx => exact scratchThen_forward _ rfl (fall (by simp))
    | ja =>
      simp only [OpValid] at valid
      exact ⟨by simp only [State.goto]; omega, by simp only [State.goto]; omega⟩
    | jmp cmp src =>
      obtain ⟨ht, hf⟩ := valid
      simp only [Outcome.Forward, State.goto]
      split <;> omega
    | alu op src =>
      have next := fall (by simp)
      cases op with
      | div =>
        cases src with
        | k => exact ⟨Nat.lt_succ_self _, next⟩
        | x =>
          dsimp only
          split
          · trivial
          · exact ⟨Nat.lt_succ_self _, next⟩
      | _ => exact ⟨Nat.lt_succ_self _, next⟩
    | ldLen | ldxLen | ldImm | ldxImm | neg | tax | txa =>
      exact ⟨Nat.lt_succ_self _, fall (by simp)⟩

theorem readThen_ok (h : ∀ ls', ls = some ls' → ∀ l ∈ ls', pkt.Holds l) :
    ∀ e ∈ (readThen pkt ls f).1, e.Ok len pkt := by
  intro e he
  cases ls with
  | none => cases he
  | some ls =>
    obtain ⟨l, hl, rfl⟩ := mem_map.mp he
    exact h ls rfl l hl

theorem scratchThen_ok (k : UInt32) (t : State) : ∀ e ∈ (scratchThen k t).1, e.Ok len pkt := by
  intro e he
  unfold scratchThen at he
  split_ifs at he with small
  · cases he
  · cases mem_singleton.mp he
    exact lt_of_not_ge small

theorem exec_ok (hv : ∀ op, decode p.code = some op → OpValid maxbuf len s.pc p op)
    (full : ¬ s.Strays pkt p) : ∀ e ∈ (exec pkt wirelen s p).1, e.Ok len pkt := by
  cases hop : decode p.code with
  | none => simp [exec, hop]
  | some op =>
    have valid := hv op hop
    simp only [exec, hop]
    cases op with
    | ldAbs size =>
      apply readThen_ok
      intro ls h l hl
      refine (Packet.loadAbs_tracks h ?_).1.holds hl
      rintro rfl stray
      exact full ⟨_, by rw [State.half, hop], stray⟩
    | ldInd size =>
      apply readThen_ok
      intro ls h l hl
      refine (Packet.loadInd_tracks h ?_).1.holds hl
      rintro rfl stray
      exact full ⟨_, by rw [State.half, hop], stray⟩
    | ldxMsh =>
      apply readThen_ok
      intro ls h l hl
      exact (Packet.loadAbs_tracks h nofun).1.holds hl
    | ldMem | ldxMem | st | stx => exact scratchThen_ok _ _
    | alu op src =>
      cases op with
      | div =>
        cases src with
        | k =>
          intro e he
          cases mem_singleton.mp he
          exact valid
        | x =>
          dsimp only
          split
          · exact nofun
          rename_i nonzero
          intro e he
          cases mem_singleton.mp he
          exact nonzero
      | _ => exact nofun
    | _ => exact nofun

theorem readThen_strays (h : ∃ ls' l, ls = some ls' ∧ l ∈ ls' ∧ ¬ pkt.Holds l) :
    ∃ l, .read l ∈ (readThen pkt ls f).1 ∧ ¬ pkt.Holds l := by
  obtain ⟨ls', l, rfl, hl, out⟩ := h
  exact ⟨l, mem_map_of_mem hl, out⟩

theorem exec_strays (h : s.Strays pkt p) :
    ∃ l, .read l ∈ (exec pkt wirelen s p).1 ∧ ¬ pkt.Holds l := by
  obtain ⟨k, hk, stray⟩ := h
  have load := Packet.load_strays stray
  unfold State.half at hk
  split at hk
  · next hop =>
    cases hk
    have beyond : absBeyond .h p.k pkt.buflen = true := by
      rw [absBeyond_iff, stray.beyond]
      exact Nat.succ_pos _
    simp only [exec, hop, Packet.loadAbs, beyond]
    exact readThen_strays load
  · next hop =>
    cases hk
    have beyond : indBeyond .h s.x p.k pkt.buflen = true := by
      rw [indBeyond_iff, stray.beyond]
      exact Nat.succ_pos _
    simp only [exec, hop, Packet.loadInd, beyond]
    exact readThen_strays load
  · cases hk

section Run

variable {f : List Insn}

theorem step_eq (h : f[s.pc]? = some p) : step f pkt wirelen s =
    (.fetch s.pc :: (exec pkt wirelen s p).1, (exec pkt wirelen s p).2) := by
  simp [step, h]

section

variable (h : validate maxbuf f = true)
include h

theorem accepted_insn {i : Nat} (hp : f[i]? = some p) :
    (∀ op, decode p.code = some op → OpValid maxbuf f.length i p op) ∧
      (bpfClass p.code ≠ 0x06 → i + 1 < f.length) := by
  have hi : i < f.length := (List.getElem?_eq_some_iff.mp hp).1
  constructor
  · intro op hop
    exact validInsn_op (validate_insn h hp) (validate_length h).2 hi hop
  intro notRet
  by_cases last : i = f.length - 1
  · exact absurd (validate_last h (last ▸ hp)) notRet
  · omega

theorem step_forward (hs : s.pc < f.length) :
    (step f pkt wirelen s).2.Forward f.length s := by
  have hp : f[s.pc]? = some f[s.pc] := List.getElem?_eq_getElem hs
  obtain ⟨valid, last⟩ := accepted_insn h hp
  rw [step_eq hp]
  exact exec_forward valid last

theorem step_ok (full : ∀ p, f[s.pc]? = some p → ¬ s.Strays pkt p) (hs : s.pc < f.length) :
    ∀ e ∈ (step f pkt wirelen s).1, e.Ok f.length pkt := by
  have hp : f[s.pc]? = some f[s.pc] := List.getElem?_eq_getElem hs
  obtain ⟨valid, _⟩ := accepted_insn h hp
  rw [step_eq hp]
  intro e he
  cases mem_cons.mp he with
  | inl fetched => rw [fetched]; exact hs
  | inr rest => exact exec_ok valid (full _ hp) e rest

/-- The instructions left are a bound on the steps left: no jump goes back. -/
theorem run_halts (n : Nat) (s : State) (hs : s.pc < f.length)
    (hn : f.length - s.pc ≤ n) : ∃ v, (run f pkt wirelen n s).2 = some v := by
  induction n generalizing s with
  | zero => omega
  | succ n ih =>
    have forward : (step f pkt wirelen s).2.Forward f.length s := step_forward h hs
    rcases hstep : step f pkt wirelen s with ⟨es, o⟩
    rw [hstep] at forward
    simp only [run, hstep]
    cases o with
    | next s' =>
      obtain ⟨up, inside⟩ := forward
      exact ih s' inside (by omega)
    | ret v => exact ⟨v, rfl⟩
    | stuck => exact forward.elim

theorem run_ok
    (full : ∀ s p, Reaches f pkt wirelen s → f[s.pc]? = some p → ¬ s.Strays pkt p) (n : Nat)
    (s : State) (hreach : Reaches f pkt wirelen s) (hs : s.pc < f.length) :
    ∀ e ∈ (run f pkt wirelen n s).1, e.Ok f.length pkt := by
  induction n generalizing s with
  | zero => exact nofun
  | succ n ih =>
    have forward : (step f pkt wirelen s).2.Forward f.length s := step_forward h hs
    have ok : ∀ e ∈ (step f pkt wirelen s).1, e.Ok f.length pkt :=
      step_ok h (fun p => full s p hreach) hs
    rcases hstep : step f pkt wirelen s with ⟨es, o⟩
    rw [hstep] at forward ok
    simp only [run, hstep]
    cases o with
    | next s' =>
      intro e he
      cases mem_append.mp he with
      | inl now => exact ok e now
      | inr later => exact ih s' (.next hreach (by rw [hstep])) forward.2 e later
    | ret | stuck => exact ok

/-- Every state of the run is met with enough instructions left, so its events are in the run. -/
theorem Reaches.run_subset (hreach : Reaches f pkt wirelen s) :
    ∃ n, s.pc < f.length ∧ f.length - s.pc ≤ n ∧
      (run f pkt wirelen n s).1 ⊆ (run f pkt wirelen f.length .init).1 := by
  induction hreach with
  | start => exact ⟨f.length, (validate_length h).1, Nat.sub_le .., fun _ => id⟩
  | @next s s' _ hstep ih =>
    obtain ⟨n, hs, hn, sub⟩ := ih
    have forward : (step f pkt wirelen s).2.Forward f.length s := step_forward h hs
    rw [hstep] at forward
    obtain ⟨up, inside⟩ := forward
    obtain ⟨m, rfl⟩ : ∃ m, n = m + 1 := ⟨n - 1, by omega⟩
    refine ⟨m, inside, by omega, fun e he => sub ?_⟩
    have hboth : step f pkt wirelen s = ((step f pkt wirelen s).1, .next s') := by rw [← hstep]
    simp only [run]
    rw [hboth]
    exact mem_append_right _ he

theorem step_subset (hreach : Reaches f pkt wirelen s) :
    (step f pkt wirelen s).1 ⊆ (run f pkt wirelen f.length .init).1 := by
  obtain ⟨n, hs, hn, sub⟩ := hreach.run_subset h
  obtain ⟨m, rfl⟩ : ∃ m, n = m + 1 := ⟨n - 1, by omega⟩
  intro e he
  apply sub
  simp only [run]
  rcases hstep : step f pkt wirelen s with ⟨es, o⟩
  rw [hstep] at he
  cases o with
  | next => exact mem_append_left _ he
  | ret | stuck => exact he

end

end Run

/-- The program halts within its length, and all it touches is where it belongs. -/
structure Safe (f : List Insn) (pkt : Packet) (wirelen : UInt32) : Prop where
  halts : ∃ v, (bpfFilter (some f) pkt wirelen f.length).2 = some v
  accesses : ∀ e ∈ (bpfFilter (some f) pkt wirelen f.length).1, e.Ok f.length pkt

/-- `ldx #off; ldh [x + 0]; ret #0`. -/
def halfAt (off : UInt32) : List Insn :=
  [⟨0x01, 0, 0, off⟩, ⟨0x48, 0, 0, 0⟩, ⟨0x06, 0, 0, 0⟩]

theorem halfAt_validate {maxbuf : UInt32} (h : maxbuf ≠ 0) (off : UInt32) :
    validate maxbuf (halfAt off) = true := by
  have pos := UInt32.pos_iff_ne_zero.mpr h
  simp +decide [validate, halfAt, validInsn, List.zipIdx, maxInsns, pos]

/-- A run of an accepted program stays in order exactly if it comes to no half-word load that
leaves the chain. All runs on a packet do so exactly if it has no offset for such a load. -/
theorem filter_safe_iff (maxbuf : UInt32) (pkt : Packet) :
    (∀ f wirelen, validate maxbuf f = true → (Safe f pkt wirelen ↔
      ∀ s p, Reaches f pkt wirelen s → f[s.pc]? = some p → ¬ s.Strays pkt p)) ∧
    ((∀ f wirelen, validate maxbuf f = true → Safe f pkt wirelen) ↔ maxbuf = 0 ∨ ¬ pkt.Stray) := by
  have each : ∀ f wirelen, validate maxbuf f = true → (Safe f pkt wirelen ↔
      ∀ s p, Reaches f pkt wirelen s → f[s.pc]? = some p → ¬ s.Strays pkt p) := by
    intro f wirelen accepted
    have start := (validate_length accepted).1
    constructor
    · intro safe s p hreach hp strays
      obtain ⟨l, hl, out⟩ := exec_strays strays
      apply out (safe.accesses (.read l) (step_subset accepted hreach _))
      rw [step_eq hp]
      exact mem_cons_of_mem _ hl
    · intro full
      exact ⟨run_halts accepted _ _ start le_rfl, run_ok accepted full _ _ .start start⟩
  refine ⟨each, fun safe => ?_, fun full f wirelen accepted => ?_⟩
  · by_contra neither
    obtain ⟨hmax, stray⟩ := not_or.mp neither
    obtain ⟨k, hk, stray⟩ := not_not.mp stray
    have accepted := halfAt_validate hmax (UInt32.ofNat k)
    have second : Reaches (halfAt (UInt32.ofNat k)) pkt 0
        ⟨1, 0, UInt32.ofNat k, List.replicate memWords 0⟩ := .next .start rfl
    refine (each _ 0 accepted).mp (safe _ 0 accepted) _ ⟨0x48, 0, 0, 0⟩ second rfl ⟨_, rfl, ?_⟩
    rwa [UInt32.add_zero, UInt32.toNat_ofNat', Nat.mod_eq_of_lt hk]
  · refine (each f wirelen accepted).mpr ?_
    rintro s p - hp ⟨k, hk, stray⟩
    cases full with
    | inr full => exact full ⟨_, k.toNat_lt, stray⟩
    | inl zero =>
      -- no load is accepted at all
      have valid := (accepted_insn accepted hp).1
      unfold State.half at hk
      split at hk
      · next hop => exact UInt32.not_lt_zero (zero ▸ valid _ hop : p.k < 0)
      · next hop => exact UInt32.not_lt_zero (zero ▸ valid _ hop : p.k < 0)
      · cases hk

/-- One byte of data and then an empty mbuf. -/
def emptyTail : Packet := .mbuf ⟨0, fun _ => 0⟩ ⟨1, fun _ => 0⟩ [⟨0, fun _ => 0⟩]

/-- `ldh [0]; ret #0` reads a byte of the empty mbuf. -/
theorem filter_reads_empty_mbuf :
    validate 0x80000 [⟨0x28, 0, 0, 0⟩, ⟨0x06, 0, 0, 0⟩] = true ∧
    Event.read ⟨2, 0⟩ ∈
      (bpfFilter (some [⟨0x28, 0, 0, 0⟩, ⟨0x06, 0, 0, 0⟩]) emptyTail 1 2).1 ∧
    ¬ emptyTail.Holds ⟨2, 0⟩ := by
  refine ⟨by decide, by decide, ?_⟩
  rintro ⟨s, hs, inside⟩
  cases hs
  exact absurd inside (Nat.not_lt_zero 0)

end XnuXzs.Bpf
