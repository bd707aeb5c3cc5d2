import XnuXzs.Lib.Paging
import XnuXzs.Xzsfs.Lookup

/-!
# Listing a directory

`xzsfs_readdir` and `xzsfs_helper_format_dirent`. A listing is a sequence of calls, of
which each goes on at the offset that the one before it left.
-/

namespace XnuXzs.Xzsfs

open XnuXzs.Lib List

def dtDir : UInt8 := 4
def dtReg : UInt8 := 8

/-- `struct dirent`, with all 256 bytes of `d_name`. -/
structure Dirent where
  fileno : UInt32
  reclen : UInt16
  type : UInt8
  namlen : UInt8
  name : List UInt8

/-- The C string at `p` of a table of 2048 bytes. -/
def cstring (m : Nat → UInt8) (p : Nat) : List UInt8 :=
  (bytesAt m p (maxStrtabSize - p)).takeWhile (· ≠ 0)

/-- `xzsfs_helper_format_dirent`; `strlcpy` keeps the zero at the end of `d_name`. -/
def formatDirent (node : CoreNode) (name : List UInt8) (dtype : UInt8) : Dirent :=
  let namelen := if name.length > 255 then 255 else name.length
  { fileno := node.objectId
    reclen := UInt16.ofNat (8 + (namelen + 1 + 3) / 4 * 4)
    type := dtype
    namlen := UInt8.ofNat namelen
    name := name.take 255 ++ List.replicate (256 - (name.take 255).length) 0 }

def Dirent.bytes (de : Dirent) : List UInt8 :=
  leBytes 4 de.fileno.toNat ++ leBytes 2 de.reclen.toNat ++ [de.type, de.namlen] ++ de.name

def Dirent.record (de : Dirent) : List UInt8 := de.bytes.take de.reclen.toNat

/-- The search for the child with number `want`; `cur` is the number of the next one. -/
def childAt (fs : CoreFs) (id : UInt32) (want : Nat) : (cur : Nat) → List Nat → Option Nat
  | _, [] => none
  | cur, i :: is =>
    if (fs.nodes i).parentId = id then
      if cur = want then some i else childAt fs id want (cur + 1) is
    else childAt fs id want cur is

/-- The record that the loop makes for an index: `.`, `..`, then the children. -/
def entryAt (fs : CoreFs) (d idx : Nat) : Option Dirent :=
  if idx = 0 then some (formatDirent (fs.nodes d) [dot] dtDir)
  else if idx = 1 then
    some (formatDirent (fs.nodes ((fs.nodes d).parentId - 1).toNat) [dot, dot] dtDir)
  else
    (childAt fs (fs.nodes d).objectId idx 2 (List.range' 1 (fs.nodeCount.toNat - 1))).map fun i =>
      formatDirent (fs.nodes i) (cstring fs.strtab (fs.nodes i).name)
        (if (fs.nodes i).type = typeDir then dtDir else dtReg)

/-- A caller's buffer. `move` is what `uiomove` returns for the record of an index. -/
structure Buffer where
  resid : Nat
  move : Nat → Int

structure Scan where
  out : List UInt8
  pos : Nat
  resid : Nat
  num : Nat
  error : Int

/-- The `while` loop. An index with no record ends it, so two turns more than nodes are enough. -/
def readdirLoop (fs : CoreFs) (d startpos : Nat) (move : Nat → Int) :
    (fuel idx : Nat) → Scan → Scan
  | 0, _, s => s
  | fuel + 1, idx, s =>
    if s.resid = 0 then s
    else match entryAt fs d idx with
      | none => s
      | some de =>
        if s.pos ≥ startpos then
          if s.resid < de.reclen.toNat then s
          else if move idx ≠ 0 then { s with error := move idx }
          else readdirLoop fs d startpos move fuel (idx + 1)
            { s with
              out := s.out ++ de.record
              pos := s.pos + de.reclen.toNat
              resid := s.resid - de.reclen.toNat
              num := s.num + 1 }
        else readdirLoop fs d startpos move fuel (idx + 1) { s with pos := s.pos + de.reclen.toNat }

/-- What a call leaves: the bytes copied out, the offset, `a_eofflag`, `a_numdirent` and
the error. -/
structure Reply where
  out : List UInt8
  offset : Nat
  eofflag : Bool
  numdirent : Nat
  error : Int

def enotdir : Int := 20

/-- `xzsfs_readdir` on the vnode of node `d`. -/
def readdir (fs : CoreFs) (d startpos : Nat) (buf : Buffer) : Reply :=
  if (fs.nodes d).type ≠ typeDir then ⟨[], startpos, false, 0, enotdir⟩
  else
    let s := readdirLoop fs d startpos buf.move (fs.nodeCount.toNat + 2) 0 ⟨[], 0, buf.resid, 0, 0⟩
    { out := s.out
      offset := s.pos
      eofflag := s.pos ≤ startpos || s.num = 0
      numdirent := s.num
      error := s.error }

def callOffset (fs : CoreFs) (d : Nat) (bufs : Nat → Buffer) : Nat → Nat
  | 0 => 0
  | n + 1 => (readdir fs d (callOffset fs d bufs n) (bufs n)).offset

def call (fs : CoreFs) (d : Nat) (bufs : Nat → Buffer) (n : Nat) : Reply :=
  readdir fs d (callOffset fs d bufs n) (bufs n)

structure Entry where
  id : UInt32
  type : UInt8
  name : List UInt8

/-- The length of the record: the name, a zero, and zeros up to a multiple of four. -/
def Entry.size (e : Entry) : Nat := 8 + (e.name.length + 4) / 4 * 4

/-- `u32 ino, u16 reclen, u8 type, u8 namlen, name`. -/
def Entry.record (e : Entry) : List UInt8 :=
  leBytes 4 e.id.toNat ++ leBytes 2 e.size ++ [e.type, UInt8.ofNat e.name.length] ++ e.name ++
    List.replicate (e.size - 8 - e.name.length) 0

/-- The children of a directory, in the order of their object ids. -/
def children (fs : CoreFs) (d : Nat) : List Nat :=
  (List.range fs.nodeCount.toNat).filter fun i => 0 < i ∧
    (fs.nodes i).parentId = (fs.nodes d).objectId

def childEntry (fs : CoreFs) (i : Nat) : Entry :=
  ⟨(fs.nodes i).objectId, if (fs.nodes i).type = typeDir then dtDir else dtReg, nodeName fs i⟩

def listing (fs : CoreFs) (d : Nat) : List Entry :=
  ⟨(fs.nodes d).objectId, dtDir, [dot]⟩ :: ⟨(fs.nodes d).parentId, dtDir, [dot, dot]⟩ ::
    (children fs d).map (childEntry fs)

/-- A call reports the end, and up to it the calls have handed out the directory. -/
def Lists (fs : CoreFs) (d : Nat) (bufs : Nat → Buffer) : Prop :=
  ∃ n, (call fs d bufs n).eofflag = true ∧ (∀ m < n, (call fs d bufs m).eofflag = false) ∧
    ((List.range (n + 1)).flatMap fun m => (call fs d bufs m).out) =
      (listing fs d).flatMap Entry.record

/-- The entry with its name cut off where `d_name` ends. -/
def Entry.clip (e : Entry) : Entry := { e with name := e.name.take 255 }

/-- The length of a record as the loop counts it. -/
def Entry.reclen (e : Entry) : Nat := e.clip.size

/-- The entry that a call begins with. -/
def callStart (l : List Entry) (bufs : Nat → Buffer) : Nat → Nat :=
  pageStart Entry.reclen l (fun n => (bufs n).resid) fun n i => decide ((bufs n).move i = 0)

/-- No name is longer than a record can hold, and each call takes the record that it begins with,
if one is left. -/
structure Roomy (fs : CoreFs) (d : Nat) (bufs : Nat → Buffer) : Prop where
  names : ∀ i ∈ children fs d, (nodeName fs i).length ≤ 255
  takes : ∀ n (hk : callStart (listing fs d) bufs n < (listing fs d).length),
    (listing fs d)[callStart (listing fs d) bufs n].size ≤ (bufs n).resid ∧
      (bufs n).move (callStart (listing fs d) bufs n) = 0

/-- The record that is made for an entry; of the node only the id is used. -/
def Entry.dirent (e : Entry) : Dirent :=
    formatDirent ⟨e.id, 0, 0, 0, 0, 0, 0, 0, 0, 0⟩ e.name e.type

theorem formatDirent_eq (node : CoreNode) (name : List UInt8) (dtype : UInt8) :
    formatDirent node name dtype = Entry.dirent ⟨node.objectId, dtype, name⟩ :=
  rfl

theorem Entry.size_pos (e : Entry) : 0 < e.size := by
  rw [Entry.size]
  omega

theorem Entry.record_length (e : Entry) : e.record.length = e.size := by
  have hsize : 8 + e.name.length ≤ e.size := by
    rw [Entry.size]
    omega
  simp only [Entry.record, length_append, leBytes_length, length_cons, length_nil, length_replicate]
  omega

theorem Entry.clip_of_short {e : Entry} (h : e.name.length ≤ 255) : e.clip = e := by
  rw [Entry.clip, take_of_length_le h]

theorem Entry.clip_size_le (e : Entry) : e.clip.size ≤ e.size := by
  simp only [Entry.size, Entry.clip, length_take]
  omega

theorem Entry.clip_size_lt {e : Entry} (h : 255 < e.name.length) : e.clip.size < e.size := by
  simp only [Entry.size, Entry.clip, length_take]
  omega

theorem Entry.dirent_namelen (e : Entry) :
    (if e.name.length > 255 then 255 else e.name.length) = e.clip.name.length := by
  rw [Entry.clip, length_take]
  split <;> omega

theorem Entry.dirent_reclen (e : Entry) : e.dirent.reclen.toNat = e.clip.size := by
  have hle : e.clip.name.length ≤ 255 := by
    exact length_take_le _ _
  simp only [Entry.dirent, formatDirent, Entry.dirent_namelen, UInt16.toNat_ofNat', Entry.size]
  omega

theorem Entry.dirent_record (e : Entry) : e.dirent.record = e.clip.record := by
  have hlen := Entry.dirent_reclen e
  have hle : e.clip.name.length ≤ 255 := length_take_le _ _
  have hbytes : e.dirent.bytes = leBytes 4 e.id.toNat ++ leBytes 2 e.clip.size ++
      [e.type, UInt8.ofNat e.clip.name.length] ++
        (e.clip.name ++ List.replicate (256 - e.clip.name.length) 0) := by
    rw [Dirent.bytes, hlen]
    simp only [Entry.dirent, formatDirent, Entry.dirent_namelen]
    rfl
  have hfront : (leBytes 4 e.id.toNat ++ leBytes 2 e.clip.size ++
      [e.type, UInt8.ofNat e.clip.name.length] ++ e.clip.name).length = 8 + e.clip.name.length := by
    simp only [length_append, leBytes_length, length_cons, length_nil]
  have hsize : 8 + e.clip.name.length ≤ e.clip.size ∧ e.clip.size ≤ 264 := by
    rw [Entry.size]
    omega
  rw [Dirent.record, hlen, hbytes, ← append_assoc, take_append, hfront,
    take_of_length_le (by omega), take_replicate, Entry.record]
  congr 2
  omega

variable {fs : CoreFs} {d : Nat}

theorem childAt_eq (id : UInt32) (is : List Nat) {want cur : Nat} (h : cur ≤ want) :
    childAt fs id want cur is = (is.filter fun i => (fs.nodes i).parentId = id)[want - cur]? := by
  induction is generalizing cur with
  | nil => rfl
  | cons i is ih =>
    rw [childAt]
    split
    · rename_i hchild
      rw [filter_cons_of_pos (by simpa using hchild)]
      split
      · rename_i hhere
        rw [hhere, Nat.sub_self]
        rfl
      · have hnext : want - cur = want - (cur + 1) + 1 := by omega
        rw [ih (by omega), hnext, getElem?_cons_succ]
    · rename_i hchild
      rw [filter_cons_of_neg (by simpa using hchild), ih h]

theorem children_eq : children fs d = (List.range' 1 (fs.nodeCount.toNat - 1)).filter
    fun i => (fs.nodes i).parentId = (fs.nodes d).objectId := by
  have hpos : ∀ l : List Nat, (∀ i ∈ l, 0 < i) →
      (l.filter fun i => 0 < i ∧ (fs.nodes i).parentId = (fs.nodes d).objectId) =
        l.filter fun i => (fs.nodes i).parentId = (fs.nodes d).objectId := by
    intro l hl
    apply filter_congr
    intro i hi
    simp [hl i hi]
  rw [children, range_eq_range']
  cases fs.nodeCount.toNat with
  | zero => rfl
  | succ n =>
    rw [range'_succ, filter_cons_of_neg (by simp), Nat.add_sub_cancel]
    apply hpos
    intro i hi
    rw [mem_range'_1] at hi
    omega

theorem children_length_le : (children fs d).length ≤ fs.nodeCount.toNat - 1 := by
  rw [children_eq]
  apply (length_filter_le _ _).trans
  rw [length_range']

theorem entryAt_eq
    (hup : (fs.nodes ((fs.nodes d).parentId - 1).toNat).objectId = (fs.nodes d).parentId)
    (hnames : ∀ i ∈ children fs d, cstring fs.strtab (fs.nodes i).name = nodeName fs i)
    (idx : Nat) :
    entryAt fs d idx = (listing fs d)[idx]?.map Entry.dirent := by
  match idx with
  | 0 => rfl
  | 1 =>
    rw [entryAt, if_neg (by decide), if_pos rfl, formatDirent_eq, hup]
    rfl
  | k + 2 =>
    rw [entryAt, if_neg (by omega), if_neg (by omega), childAt_eq _ _ (by omega),
      ← children_eq, listing,
      getElem?_cons_succ, getElem?_cons_succ, getElem?_map, Option.map_map]
    apply Option.map_congr
    intro i hi
    have hchild := mem_of_getElem? hi
    rw [formatDirent_eq, hnames i hchild]
    rfl

/-- The records that a buffer takes, from entry `k` on. -/
def Buffer.page (buf : Buffer) (k : Nat) (l : List Entry) : List Entry :=
  pageOf Entry.reclen (fun i => decide (buf.move i = 0)) buf.resid k l

variable {l : List Entry} {move : Nat → Int} {startpos fuel : Nat}

theorem readdirLoop_skip (hentry : ∀ idx, entryAt fs d idx = l[idx]?.map Entry.dirent)
    (j idx : Nat) {s : Scan} (hpos : s.pos = offsetOf Entry.reclen l idx) (hresid : s.resid ≠ 0)
    (hle : idx + j ≤ l.length) (hstart : startpos = offsetOf Entry.reclen l (idx + j)) :
    readdirLoop fs d startpos move (fuel + j) idx s =
      readdirLoop fs d startpos move fuel (idx + j) { s with pos := startpos } := by
  induction j generalizing idx s with
  | zero =>
    rw [add_zero] at hstart
    rw [hstart, ← hpos]
    rfl
  | succ j ih =>
    have hidx : idx < l.length := by omega
    have hsize : l[idx].dirent.reclen.toNat = l[idx].reclen := Entry.dirent_reclen _
    have hbefore : ¬s.pos ≥ startpos := by
      rw [hpos, hstart, ge_iff_le, not_le]
      exact offsetOf_lt (fun e _ => e.clip.size_pos) (by omega) hle
    have hnext : s.pos + l[idx].reclen = offsetOf Entry.reclen l (idx + 1) := by
      rw [hpos, offsetOf_succ hidx]
    have hshift : idx + (j + 1) = idx + 1 + j := by omega
    rw [← add_assoc, readdirLoop, if_neg hresid, hentry, getElem?_eq_getElem hidx, Option.map_some]
    simp only [hbefore, if_false, hsize]
    rw [hshift] at hle hstart ⊢
    exact ih (idx + 1) hnext hresid hle hstart

theorem readdirLoop_page (hentry : ∀ idx, entryAt fs d idx = l[idx]?.map Entry.dirent) (idx : Nat)
    {s : Scan} (hpos : startpos ≤ s.pos) (hfuel : l.length - idx < fuel) :
    let page := (Buffer.mk s.resid move).page idx (l.drop idx)
    let t := readdirLoop fs d startpos move fuel idx s
    t.out = s.out ++ page.flatMap (fun e => e.clip.record) ∧
      t.pos = s.pos + (page.map Entry.reclen).sum ∧ t.num = s.num + page.length := by
  induction fuel generalizing idx s with
  | zero => omega
  | succ fuel ih =>
    intro page t
    by_cases hidx : idx < l.length
    · have hsize : l[idx].dirent.reclen.toNat = l[idx].reclen := Entry.dirent_reclen _
      have hrec : l[idx].dirent.record = l[idx].clip.record := Entry.dirent_record _
      have hsome : 0 < l[idx].reclen := l[idx].clip.size_pos
      have hpage : page = if l[idx].reclen ≤ s.resid ∧ decide (move idx = 0) = true then
          l[idx] :: (Buffer.mk (s.resid - l[idx].reclen) move).page (idx + 1) (l.drop (idx + 1))
            else [] := by
        simp only [page, Buffer.page]
        rw [drop_eq_getElem_cons hidx, pageOf]
      have ht : t = if s.resid = 0 then s else if s.resid < l[idx].reclen then s
          else if move idx ≠ 0 then { s with error := move idx }
          else readdirLoop fs d startpos move fuel (idx + 1) { s with
              out := s.out ++ l[idx].clip.record
              pos := s.pos + l[idx].reclen
              resid := s.resid - l[idx].reclen
              num := s.num + 1 } := by
        simp only [t]
        rw [readdirLoop, hentry, getElem?_eq_getElem hidx, Option.map_some]
        simp [hpos, hsize, hrec]
      by_cases htake : l[idx].reclen ≤ s.resid ∧ move idx = 0
      · rw [if_neg (by omega), if_neg (by omega), if_neg (not_not.mpr htake.2)] at ht
        rw [if_pos ⟨htake.1, by simpa using htake.2⟩] at hpage
        obtain ⟨hout, hp, hn⟩ := @ih (idx + 1) { s with
            out := s.out ++ l[idx].clip.record
            pos := s.pos + l[idx].reclen
            resid := s.resid - l[idx].reclen
            num := s.num + 1 } (Nat.le_add_right_of_le hpos) (by omega)
        dsimp only at hout hp hn
        rw [ht, hpage, hout, hp, hn, flatMap_cons, map_cons, sum_cons, length_cons, append_assoc]
        exact ⟨rfl, by omega, by omega⟩
      · have hstop : t.out = s.out ∧ t.pos = s.pos ∧ t.num = s.num := by
          rw [ht]
          split
          · exact ⟨rfl, rfl, rfl⟩
          split
          · exact ⟨rfl, rfl, rfl⟩
          · split
            · exact ⟨rfl, rfl, rfl⟩
            · omega
        rw [if_neg (by simpa using htake)] at hpage
        simpa [hpage] using hstop
    · have hend : t = s := by
        simp only [t]
        rw [readdirLoop, hentry, getElem?_eq_none (by omega)]
        exact ite_self s
      have hpage : page = [] := by
        simp only [page, Buffer.page]
        rw [drop_eq_nil_of_le (by omega)]
        rfl
      rw [hend, hpage]
      simp

/-- A call at the beginning of entry `k` hands out a page, and reports the end when the
page is empty. -/
theorem readdir_eq (hdir : (fs.nodes d).type = typeDir)
    (hentry : ∀ idx, entryAt fs d idx = l[idx]?.map Entry.dirent)
    (hlen : l.length ≤ fs.nodeCount.toNat + 1) {k : Nat} (hk : k ≤ l.length) {buf : Buffer}
    (hresid : 0 < buf.resid) :
    let page := buf.page k (l.drop k)
    let r := readdir fs d (offsetOf Entry.reclen l k) buf
    r.out = page.flatMap (fun e => e.clip.record) ∧
      r.offset = offsetOf Entry.reclen l (k + page.length) ∧ (r.eofflag = true ↔ page = []) := by
  intro page r
  have hprefix : (l.drop k).take page.length = page :=
    (prefix_iff_eq_take.mp (pageOf_initial ..)).symm
  have hfuel : fs.nodeCount.toNat + 2 = fs.nodeCount.toNat + 2 - k + k := by omega
  have hskip := @readdirLoop_skip fs d l buf.move (offsetOf Entry.reclen l k)
    (fs.nodeCount.toNat + 2 - k)
    hentry k 0 ⟨[], 0, buf.resid, 0, 0⟩ rfl (by exact hresid.ne') (by omega) (by rw [zero_add])
  rw [← hfuel, zero_add] at hskip
  obtain ⟨hout, hpos, hnum⟩ := @readdirLoop_page fs d l buf.move (offsetOf Entry.reclen l k)
    (fs.nodeCount.toNat + 2 - k) hentry k ⟨[], offsetOf Entry.reclen l k, buf.resid, 0, 0⟩ le_rfl
    (by omega)
  rw [zero_add] at hnum
  change _ = _ + (page.map Entry.reclen).sum at hpos
  have hr : r = _ := if_neg (not_not.mpr hdir)
  rw [hskip] at hr
  rw [hr]
  refine ⟨hout, ?_, ?_⟩
  · rw [offsetOf_add, hprefix]
    exact hpos
  simp only [Bool.or_eq_true, decide_eq_true_eq, hpos, hnum]
  constructor
  · rintro (hle | hnone)
    · have hzero : (page.map Entry.reclen).sum = 0 := by omega
      rw [eq_nil_iff_forall_not_mem]
      intro e he
      exact absurd (sum_eq_zero_iff.mp hzero _ (mem_map_of_mem he)) e.clip.size_pos.ne'
    · exact length_eq_zero_iff.mp hnone
  · intro hnone
    exact .inr (length_eq_zero_iff.mpr hnone)

variable {bufs : Nat → Buffer} {n : Nat}

def callPage (l : List Entry) (bufs : Nat → Buffer) : Nat → List Entry :=
  pageAt Entry.reclen l (fun n => (bufs n).resid) fun n i => decide ((bufs n).move i = 0)

theorem callStart_le (n : Nat) : callStart l bufs n ≤ l.length := pageStart_le n

theorem callPage_eq_nil : callPage l bufs n = [] ↔ ∀ h : callStart l bufs n < l.length,
    ¬(l[callStart l bufs n].reclen ≤ (bufs n).resid ∧ (bufs n).move (callStart l bufs n) = 0) := by
  have hnil := @pageAt_eq_nil Entry Entry.reclen l (fun n => (bufs n).resid)
    (fun n i => decide ((bufs n).move i = 0)) n
  simp only [decide_eq_true_eq] at hnil
  exact hnil

theorem callOffset_eq (hdir : (fs.nodes d).type = typeDir)
    (hentry : ∀ idx, entryAt fs d idx = l[idx]?.map Entry.dirent)
    (hlen : l.length ≤ fs.nodeCount.toNat + 1) (hpos : ∀ n, 0 < (bufs n).resid) (n : Nat) :
    callOffset fs d bufs n = offsetOf Entry.reclen l (callStart l bufs n) := by
  induction n with
  | zero => rfl
  | succ n ih =>
    rw [callOffset, ih]
    exact (readdir_eq hdir hentry hlen (pageStart_le n) (hpos n)).2.1

theorem call_eq (hdir : (fs.nodes d).type = typeDir)
    (hentry : ∀ idx, entryAt fs d idx = l[idx]?.map Entry.dirent)
    (hlen : l.length ≤ fs.nodeCount.toNat + 1) (hpos : ∀ n, 0 < (bufs n).resid) (n : Nat) :
    (call fs d bufs n).out = (callPage l bufs n).flatMap (fun e => e.clip.record) ∧
      ((call fs d bufs n).eofflag = true ↔ callPage l bufs n = []) := by
  rw [call, callOffset_eq hdir hentry hlen hpos]
  obtain ⟨hout, -, heof⟩ := readdir_eq hdir hentry hlen (pageStart_le n) (hpos n)
  exact ⟨hout, heof⟩

/-- What the calls have handed out, against the directory: nothing left, no name cut off. -/
theorem clipped_eq_iff {K : Nat} (hK : K ≤ l.length) :
    (l.take K).flatMap (fun e => e.clip.record) = l.flatMap Entry.record ↔
      K = l.length ∧ ∀ e ∈ l, e.name.length ≤ 255 := by
  constructor
  · intro heq
    have hsum : ((l.take K).map Entry.reclen).sum = (l.map Entry.size).sum := by
      have hlen := congrArg List.length heq
      simp only [length_flatMap, Entry.record_length] at hlen
      exact hlen
    have hclip : ∀ es : List Entry, (es.map Entry.reclen).sum ≤ (es.map Entry.size).sum := fun es =>
      sum_le_sum fun e _ => e.clip_size_le
    have hsplit : (l.map Entry.size).sum = ((l.take K).map Entry.size).sum +
        ((l.drop K).map Entry.size).sum := by
      rw [← sum_append, ← map_append, take_append_drop]
    have hle := hclip (l.take K)
    have hwhole : K = l.length := by
      by_contra hne
      have hlt : K < l.length := by omega
      have hmem : l[K] ∈ l.drop K := by
        rw [drop_eq_getElem_cons hlt]
        exact mem_cons_self
      have hpart :=
        single_le_sum (fun _ _ => Nat.zero_le _) _ (mem_map_of_mem (f := Entry.size) hmem)
      have hpos := l[K].size_pos
      omega
    refine ⟨hwhole, fun e he => ?_⟩
    rw [hwhole, take_length] at hsum
    by_contra hlong
    have hlt := sum_lt_sum (l := l) Entry.reclen Entry.size (fun e _ => e.clip_size_le)
      ⟨e, he, Entry.clip_size_lt (Nat.lt_of_not_le hlong)⟩
    omega
  · rintro ⟨rfl, hshort⟩
    rw [take_length]
    apply flatMap_congr
    intro e he
    rw [Entry.clip_of_short (hshort e he)]

theorem roomy_iff (hempty : callPage (listing fs d) bufs n = [])
    (hfirst : ∀ m < n, callPage (listing fs d) bufs m ≠ []) :
    Roomy fs d bufs ↔ callStart (listing fs d) bufs n = (listing fs d).length ∧
      ∀ e ∈ listing fs d, e.name.length ≤ 255 := by
  have hnames : (∀ i ∈ children fs d, (nodeName fs i).length ≤ 255) ↔
      ∀ e ∈ listing fs d, e.name.length ≤ 255 := by
    simp only [listing, forall_mem_cons, forall_mem_map, childEntry]
    exact ⟨fun h => ⟨by decide, by decide, h⟩, fun h => h.2.2⟩
  -- where no name is cut off, a record is as long as the loop counts it
  have hsizes : (∀ e ∈ listing fs d, e.name.length ≤ 255) →
      ∀ e ∈ listing fs d, e.reclen = e.size := by
    intro hshort e he
    rw [Entry.reclen, Entry.clip_of_short (hshort e he)]
  have hle := @callStart_le (listing fs d) bufs
  constructor
  · intro hroomy
    have hshort := hnames.mp hroomy.names
    refine ⟨?_, hshort⟩
    by_contra hne
    have hlt := lt_of_le_of_ne (hle n) hne
    obtain ⟨hfits, hmoved⟩ := hroomy.takes n hlt
    apply callPage_eq_nil.mp hempty hlt
    rw [hsizes hshort _ (getElem_mem _)]
    exact ⟨hfits, hmoved⟩
  · rintro ⟨hwhole, hshort⟩
    refine ⟨hnames.mpr hshort, fun m hm => ?_⟩
    have hmn : m < n := by
      by_contra hge
      exact absurd (pageStart_mono (not_lt.mp hge)) (not_le.mpr (hwhole.symm ▸ hm))
    have hsome := hfirst m hmn
    rw [Ne, callPage_eq_nil, not_forall] at hsome
    obtain ⟨h, htakes⟩ := hsome
    obtain ⟨hfits, hmoved⟩ := not_not.mp htakes
    rw [← hsizes hshort _ (getElem_mem _)]
    exact ⟨hfits, hmoved⟩

theorem lists_iff_whole (hdir : (fs.nodes d).type = typeDir)
    (hentry : ∀ idx, entryAt fs d idx = (listing fs d)[idx]?.map Entry.dirent)
    (hlen : (listing fs d).length ≤ fs.nodeCount.toNat + 1) (hpos : ∀ n, 0 < (bufs n).resid)
    (hempty : callPage (listing fs d) bufs n = [])
    (hfirst : ∀ m < n, callPage (listing fs d) bufs m ≠ []) :
    Lists fs d bufs ↔ callStart (listing fs d) bufs n = (listing fs d).length ∧
      ∀ e ∈ listing fs d, e.name.length ≤ 255 := by
  have hcall := call_eq hdir hentry hlen hpos
  have hout : ((List.range (n + 1)).flatMap fun m => (call fs d bufs m).out) =
      ((listing fs d).take (callStart (listing fs d) bufs n)).flatMap fun e => e.clip.record := by
    have hstop : callStart (listing fs d) bufs (n + 1) = callStart (listing fs d) bufs n := by
      change _ + (callPage (listing fs d) bufs n).length = _
      rw [hempty]
      rfl
    rw [← hstop, callStart, ← pages_eq_take, flatMap_assoc]
    apply flatMap_congr
    intro m _
    exact (hcall m).1
  rw [← clipped_eq_iff (callStart_le n), ← hout]
  constructor
  · rintro ⟨n', heof, hmore, hbytes⟩
    have hn : n' = n := by
      rcases lt_trichotomy n' n with hlt | heq | hlt
      · exact absurd ((hcall n').2.mp heof) (hfirst n' hlt)
      · exact heq
      · have hend := (hcall n).2.mpr hempty
        rw [hmore n hlt] at hend
        cases hend
    rwa [← hn]
  · intro hbytes
    refine ⟨n, (hcall n).2.mpr hempty, fun m hm => ?_, hbytes⟩
    rw [← Bool.not_eq_true]
    exact fun heof => hfirst m hm ((hcall m).2.mp heof)

variable {sb : Superblock} {objs : Objects} {strtab : Strtab}

theorem cstring_eq (hv : ValidSuperblock sb) (hg : ValidGraph sb objs strtab) {i : Nat} (h0 : 0 < i)
    (hi : i < sb.objectCount.toNat) :
    cstring (initFs fs sb objs strtab).strtab ((initFs fs sb objs strtab).nodes i).name =
      nodeName (initFs fs sb objs strtab) i := by
  have hchild := (hg.object i hi).child h0
  have hin := hchild.name_in
  have hsize := hv.stringTableSize_le
  have hbyte : ∀ p < sb.stringTableSize.toNat, (initFs fs sb objs strtab).strtab p = strtab p :=
    fun p hp => if_pos hp
  have hnul := hchild.name_nul
  have hplace : ((objs i).nameOffset + (objs i).nameLength).toNat =
      (objs i).nameOffset.toNat + (objs i).nameLength.toNat := by
    rw [UInt32.toNat_add]
    omega
  rw [hplace] at hnul
  have hroom : maxStrtabSize - (objs i).nameOffset.toNat = (objs i).nameLength.toNat +
      (maxStrtabSize - (objs i).nameOffset.toNat - (objs i).nameLength.toNat - 1 + 1) := by
    rw [maxStrtabSize]
    omega
  rw [cstring, nodeName, initFs_node hi]
  simp only [nodeOf]
  rw [hroom, bytesAt_append, takeWhile_append_of_pos]
  · rw [add_comm _ 1, bytesAt_append _ _ 1]
    have hstop : bytesAt (initFs fs sb objs strtab).strtab
        ((objs i).nameOffset.toNat + (objs i).nameLength.toNat) 1 = [0] := by
      change [(initFs fs sb objs strtab).strtab ((objs i).nameOffset.toNat +
        (objs i).nameLength.toNat)] = [0]
      rw [hbyte _ hin, hnul]
    rw [hstop]
    exact append_nil _
  · intro b hb
    obtain ⟨c, hc, rfl⟩ := mem_map.mp hb
    rw [mem_range] at hc
    rw [hbyte _ (by omega)]
    exact decide_eq_true (hchild.name_chars c hc).2

theorem initFs_entryAt (hv : ValidSuperblock sb) (hg : ValidGraph sb objs strtab) {d : Nat}
    (hd : d < sb.objectCount.toNat) (idx : Nat) : entryAt (initFs fs sb objs strtab) d idx =
      (listing (initFs fs sb objs strtab) d)[idx]?.map Entry.dirent := by
  apply entryAt_eq
  · obtain ⟨hpos, hle⟩ := parentId_range hv hg hd
    rw [initFs_node hd]
    change ((initFs fs sb objs strtab).nodes ((objs d).parentId - 1).toNat).objectId =
      (objs d).parentId
    rw [uint32_pred hpos, initFs_node (by omega), ← UInt32.toNat_inj]
    change (objs _).objectId.toNat = _
    rw [object_id hv hg (by omega)]
    omega
  · intro i hi
    obtain ⟨hlt, hchild⟩ := mem_filter.mp hi
    exact cstring_eq hv hg (of_decide_eq_true hchild).1 (mem_range.mp hlt)

theorem listing_length_le (hv : ValidSuperblock sb) (d : Nat) :
    (listing (initFs fs sb objs strtab) d).length ≤ (initFs fs sb objs strtab).nodeCount.toNat +
      1 := by
  have hchildren := @children_length_le (initFs fs sb objs strtab) d
  have hpos := hv.count_pos
  change _ ≤ sb.objectCount.toNat - 1 at hchildren
  change _ ≤ sb.objectCount.toNat + 1
  rw [listing, length_cons, length_cons, length_map]
  omega

/-- A listing of any directory of an accepted filesystem, with buffers of any sizes, is
complete exactly when no name of a child is longer than 255 bytes and every call takes the
record it begins with, as long as one is left. -/
theorem lists_iff (hsb : validateSuperblock sb = .ok ())
    (hgraph : validateGraph sb objs strtab = .ok ()) (fs : CoreFs) (d : Nat)
    (hd : d < sb.objectCount.toNat) (hdir : ((initFs fs sb objs strtab).nodes d).type = typeDir)
    (bufs : Nat → Buffer) (hpos : ∀ n, 0 < (bufs n).resid) :
    Lists (initFs fs sb objs strtab) d bufs ↔ Roomy (initFs fs sb objs strtab) d bufs := by
  have hv := validateSuperblock_ok.mp hsb
  have hg := validateGraph_ok.mp hgraph
  have hentry := @initFs_entryAt fs sb objs strtab hv hg d hd
  have hlen := @listing_length_le fs sb objs strtab hv d
  obtain ⟨n, hempty, hfirst⟩ := @exists_empty_page Entry Entry.reclen
    (listing (initFs fs sb objs strtab) d) (fun n => (bufs n).resid) fun n i =>
      decide ((bufs n).move i = 0)
  rw [lists_iff_whole hdir hentry hlen hpos hempty hfirst, roomy_iff hempty hfirst]

/-- Every buffer of a listing has this size, and every copy succeeds. -/
def buffersOf (size : Nat) : Nat → Buffer := fun _ => ⟨size, fun _ => 0⟩

theorem lists_root : validateSuperblock twoObjects = .ok () ∧
    validateGraph twoObjects (rootAndFile 1536 100) (oneName 0x61) = .ok () ∧
    Lists (initFs emptyFs twoObjects (rootAndFile 1536 100) (oneName 0x61)) 0 (buffersOf 12) := by
  have hgraph : validateGraph twoObjects (rootAndFile 1536 100) (oneName 0x61) = .ok () := by decide
  refine ⟨by decide, hgraph, (lists_iff (by decide) hgraph emptyFs 0 (by decide) rfl (buffersOf 12)
    fun _ => Nat.succ_pos 11).mpr ⟨by decide, fun n hk => ⟨?_, rfl⟩⟩⟩
  have hall : ∀ e ∈ listing (initFs emptyFs twoObjects (rootAndFile 1536 100) (oneName 0x61)) 0,
      e.size ≤ 12 := by
    decide
  exact hall _ (getElem_mem hk)

/-- With 5 bytes of room the first call copies nothing and reports the end, before even
`.` has been handed out. -/
theorem lists_small_buffer : validateSuperblock twoObjects = .ok () ∧
    validateGraph twoObjects (rootAndFile 1536 100) (oneName 0x61) = .ok () ∧
    ¬Lists (initFs emptyFs twoObjects (rootAndFile 1536 100) (oneName 0x61)) 0 (buffersOf 5) := by
  refine ⟨by decide, by decide, ?_⟩
  rintro ⟨n, -, hmore, hbytes⟩
  cases n with
  | zero => exact absurd hbytes (by decide)
  | succ n => exact absurd (hmore 0 (Nat.succ_pos n)) (by decide)

end XnuXzs.Xzsfs
