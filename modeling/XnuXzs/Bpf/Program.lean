import Mathlib.Tactic

/-!
# BPF programs and the static check

The instructions of `bpf.h` and `bpf_validate`. A code that is no label of the interpreter's
`switch` decodes to nothing; the check accepts some of them.
-/

namespace XnuXzs.Bpf

structure Insn where
  code : UInt16
  jt : UInt8
  jf : UInt8
  k : UInt32
  deriving DecidableEq, Repr

def maxInsns : Nat := 512
def memWords : Nat := 16

inductive Size where
  | w
  | h
  | b
  deriving DecidableEq, Repr

inductive Src where
  | k
  | x
  deriving DecidableEq, Repr

inductive AluOp where
  | add
  | sub
  | mul
  | div
  | or
  | and
  | lsh
  | rsh
  deriving DecidableEq, Repr

inductive Cmp where
  | jeq
  | jgt
  | jge
  | jset
  deriving DecidableEq, Repr

inductive Op where
  | retK
  | retA
  | ldAbs (size : Size)
  | ldInd (size : Size)
  | ldLen
  | ldxLen
  | ldxMsh
  | ldImm
  | ldxImm
  | ldMem
  | ldxMem
  | st
  | stx
  | ja
  | jmp (cmp : Cmp) (src : Src)
  | alu (op : AluOp) (src : Src)
  | neg
  | tax
  | txa
  deriving DecidableEq, Repr

def Size.code : Size → UInt16
  | .w => 0x00
  | .h => 0x08
  | .b => 0x10

def Size.bytes : Size → Nat
  | .w => 4
  | .h => 2
  | .b => 1

def Src.code : Src → UInt16
  | .k => 0x00
  | .x => 0x08

def AluOp.code : AluOp → UInt16
  | .add => 0x00
  | .sub => 0x10
  | .mul => 0x20
  | .div => 0x30
  | .or => 0x40
  | .and => 0x50
  | .lsh => 0x60
  | .rsh => 0x70

def Cmp.code : Cmp → UInt16
  | .jeq => 0x10
  | .jgt => 0x20
  | .jge => 0x30
  | .jset => 0x40

/-- The label of a case: class, then size and mode, or operation and source. -/
def Op.code : Op → UInt16
  | .retK => 0x06 ||| 0x00
  | .retA => 0x06 ||| 0x10
  | .ldAbs size => 0x00 ||| size.code ||| 0x20
  | .ldInd size => 0x00 ||| size.code ||| 0x40
  | .ldLen => 0x00 ||| 0x00 ||| 0x80
  | .ldxLen => 0x01 ||| 0x00 ||| 0x80
  | .ldxMsh => 0x01 ||| 0xa0 ||| 0x10
  | .ldImm => 0x00 ||| 0x00
  | .ldxImm => 0x01 ||| 0x00
  | .ldMem => 0x00 ||| 0x60
  | .ldxMem => 0x01 ||| 0x60
  | .st => 0x02
  | .stx => 0x03
  | .ja => 0x05 ||| 0x00
  | .jmp cmp src => 0x05 ||| cmp.code ||| src.code
  | .alu op src => 0x04 ||| op.code ||| src.code
  | .neg => 0x04 ||| 0x80
  | .tax => 0x07 ||| 0x00
  | .txa => 0x07 ||| 0x80

def ops : List Op :=
  [.retK, .retA, .ldAbs .w, .ldAbs .h, .ldAbs .b, .ldLen, .ldxLen, .ldInd .w, .ldInd .h, .ldInd .b,
   .ldxMsh, .ldImm, .ldxImm, .ldMem, .ldxMem, .st, .stx, .ja,
   .jmp .jgt .k, .jmp .jge .k, .jmp .jeq .k, .jmp .jset .k,
   .jmp .jgt .x, .jmp .jge .x, .jmp .jeq .x, .jmp .jset .x,
   .alu .add .x, .alu .sub .x, .alu .mul .x, .alu .div .x, .alu .and .x, .alu .or .x,
   .alu .lsh .x, .alu .rsh .x,
   .alu .add .k, .alu .sub .k, .alu .mul .k, .alu .div .k, .alu .and .k, .alu .or .k,
   .alu .lsh .k, .alu .rsh .k, .neg, .tax, .txa]

/-- `switch (pc->code)`; `none` is the `default` case. -/
def decode (code : UInt16) : Option Op := ops.find? fun op => op.code == code

variable {op : Op} {maxbuf : UInt32} {f : List Insn} {p : Insn} {i : Nat}

theorem decode_some {code : UInt16} (h : decode code = some op) : code = op.code := by
  have := List.find?_some h
  exact (beq_iff_eq.mp this).symm

def bpfClass (code : UInt16) : UInt16 := code &&& 0x07
def bpfMode (code : UInt16) : UInt16 := code &&& 0xe0
def bpfOp (code : UInt16) : UInt16 := code &&& 0xf0
def bpfSrc (code : UInt16) : UInt16 := code &&& 0x08

/-- One instruction in `bpf_validate`, at index `i` of `len`, with jump targets in 32 bits. -/
def validInsn (maxbuf : UInt32) (len i : Nat) (p : Insn) : Bool :=
  let cls := bpfClass p.code
  let mode := bpfMode p.code
  let op := bpfOp p.code
  if cls = 0x00 ∨ cls = 0x01 then
    if mode = 0x00 then true
    else if mode = 0x20 ∨ mode = 0x40 ∨ mode = 0xa0 then p.k < maxbuf
    else if mode = 0x60 then p.k.toNat < memWords
    else mode = 0x80
  else if cls = 0x02 ∨ cls = 0x03 then p.k.toNat < memWords
  else if cls = 0x04 then
    if op = 0x30 then !(bpfSrc p.code = 0x00 && p.k = 0)
    else op = 0x00 ∨ op = 0x10 ∨ op = 0x20 ∨ op = 0x40 ∨ op = 0x50 ∨
      op = 0x60 ∨ op = 0x70 ∨ op = 0x80
  else if cls = 0x05 then
    let from_ := i + 1
    if op = 0x00 then
      !((from_ + p.k.toNat) % 2 ^ 32 < from_ || (from_ + p.k.toNat) % 2 ^ 32 ≥ len)
    else if op = 0x10 ∨ op = 0x20 ∨ op = 0x30 ∨ op = 0x40 then
      !(from_ + p.jt.toNat ≥ len || from_ + p.jf.toNat ≥ len)
    else false
  else true

def validate (maxbuf : UInt32) (f : List Insn) : Bool :=
  if f.length < 1 ∨ f.length > maxInsns then false
  else f.zipIdx.all (fun pi => validInsn maxbuf f.length pi.2 pi.1) &&
    f.getLast?.any (fun p => bpfClass p.code == 0x06)

theorem validate_insn (h : validate maxbuf f = true) (hp : f[i]? = some p) :
    validInsn maxbuf f.length i p = true := by
  simp only [validate] at h
  split at h
  · cases h
  · rw [Bool.and_eq_true, List.all_eq_true] at h
    exact h.1 (p, i) (List.mk_mem_zipIdx_iff_getElem?.mpr hp)

theorem validate_length (h : validate maxbuf f = true) : 0 < f.length ∧ f.length ≤ maxInsns := by
  simp only [validate] at h
  split at h
  · cases h
  · omega

theorem validate_last (h : validate maxbuf f = true) (hp : f[f.length - 1]? = some p) :
    bpfClass p.code = 0x06 := by
  simp only [validate] at h
  split at h
  · cases h
  · rw [Bool.and_eq_true, List.getLast?_eq_getElem?, hp] at h
    simpa using h.2

/-- What an accepted instruction at index `i` of `len` has, by its case. -/
def OpValid (maxbuf : UInt32) (len i : Nat) (p : Insn) : Op → Prop
  | .ldAbs _ | .ldInd _ | .ldxMsh => p.k < maxbuf
  | .ja => i + 1 + p.k.toNat < len
  | .jmp _ _ => i + 1 + p.jt.toNat < len ∧ i + 1 + p.jf.toNat < len
  | .alu .div .k => p.k ≠ 0
  | _ => True

theorem validInsn_op {len : Nat} (h : validInsn maxbuf len i p = true) (hlen : len ≤ maxInsns)
    (hi : i < len) (hop : decode p.code = some op) : OpValid maxbuf len i p op := by
  have hcode := decode_some hop
  have := p.k.toNat_lt
  simp only [maxInsns] at hlen
  simp only [validInsn, hcode] at h
  cases op with
  | ldAbs size | ldInd size =>
    cases size <;> simpa +decide [OpValid] using h
  | ldxMsh => simpa +decide [OpValid] using h
  | ja =>
    simp +decide at h
    simp only [OpValid]
    omega
  | jmp cmp src => cases cmp <;> cases src <;> simpa +decide [OpValid] using h
  | alu op src =>
    cases op with
    | div => cases src with
      | k => simpa +decide [OpValid] using h
      | x => trivial
    | _ => trivial
  | _ => trivial

theorem decode_ret {code : UInt16} (h : decode code = some op) (hret : bpfClass code = 0x06) :
    op = .retK ∨ op = .retA := by
  rw [decode_some h] at hret
  revert hret
  cases op with
  | ldAbs size | ldInd size => cases size <;> decide
  | jmp cmp src | alu cmp src => cases cmp <;> cases src <;> decide
  | _ => decide

end XnuXzs.Bpf
