import XnuXzs.Pipe.Ring

/-!
# One call at a time

What is known of a call where it has given up the lock, and that every step keeps it, keeps the
unread bytes in order, and respects `pipeio_lock`.
-/

namespace XnuXzs.Pipe

open Lib List

def Call.Holds : Call → Prop
  | .idle => False
  | .writing w =>
    match w.pc with
    | .first .. | .firstDone .. | .second .. | .secondDone .. => True
    | _ => False
  | .reading r =>
    match r.pc with
    | .top | .copy _ | .copied .. => True
    | _ => False

/-- A write that has to be atomic. -/
def Write.Small (w : Write) : Prop := w.data.length ≤ pipeBuf

/-- Between two rounds. An atomic write has done all or nothing. -/
structure Write.Between (w : Write) (mine : List UInt8) : Prop where
  data : w.data = mine ++ w.left
  small : w.Small → mine = [] ∨ w.left = []

/-- Within a round, with `moved` of `size` bytes copied. -/
structure Write.Within (w : Write) (mine : List UInt8) (p : Pipebuf) (size seg : Nat)
    (moved : List UInt8) : Prop where
  data : w.data = mine ++ (moved ++ w.left)
  round : Round p size seg
  enough : size ≤ moved.length + w.left.length
  small : w.Small → mine = [] ∧ size = moved.length + w.left.length

/-- `mine` are the bytes that were accepted from the call. -/
def Write.Ok (w : Write) (mine : List UInt8) (p : Pipebuf) : Prop :=
  match w.pc with
  | .start | .top | .finished => w.Between mine
  | .resize pipeSize => w.Between mine ∧ pipeSize ∈ pipesizeBlocks
  | .lock space => w.Between mine ∧ w.left ≠ [] ∧ 0 < space ∧
      (w.Small → (w.left.length : Int) ≤ space)
  | .first size seg => w.Within mine p size seg []
  | .firstDone size seg moved =>
    w.Within mine p size seg moved ∧ moved.length = seg ∧ bytesAt p.mem p.inp seg = moved
  | .second size seg moved =>
    w.Within mine p size seg moved ∧ moved.length = seg ∧ bytesAt p.mem p.inp seg = moved
  | .secondDone size seg moved =>
    w.Within mine p size seg moved ∧ moved.length = size ∧
      bytesAt p.mem p.inp seg ++ bytesAt p.mem 0 (size - seg) = moved

/-- `mine` are the bytes that were delivered to the call. -/
def Read.Ok (r : Read) (mine : List UInt8) (p : Pipebuf) : Prop :=
  match r.pc with
  | .lock | .top | .finished => r.got = mine
  | .copy size => r.got = mine ∧ 0 < size ∧ size ≤ p.cnt ∧ p.out + size ≤ p.size
  | .copied size moved =>
    r.got = mine ++ moved ∧ 0 < size ∧ size ≤ p.cnt ∧ p.out + size ≤ p.size ∧
      moved = bytesAt p.mem p.out size

def Call.Ok (taken given : List UInt8) (p : Pipebuf) : Call → Prop
  | .idle => taken = [] ∧ given = []
  | .writing w => w.Ok taken p ∧ given = []
  | .reading r => taken = [] ∧ r.Ok given p

theorem Call.Ok.of_not_holds {call : Call} {taken given : List UInt8} {p p' : Pipebuf}
    (h : call.Ok taken given p) (hnot : ¬call.Holds) : call.Ok taken given p' := by
  cases call with
  | idle => exact h
  | writing w =>
    obtain ⟨hok, hgiven⟩ := h
    refine ⟨?_, hgiven⟩
    unfold Write.Ok at hok ⊢
    unfold Call.Holds at hnot
    cases hpc : w.pc <;> simp only [hpc, not_true_eq_false] at hok hnot ⊢ <;> exact hok
  | reading r =>
    obtain ⟨htaken, hok⟩ := h
    refine ⟨htaken, ?_⟩
    unfold Read.Ok at hok ⊢
    unfold Call.Holds at hnot
    cases hpc : r.pc <;> simp only [hpc, not_true_eq_false] at hok hnot ⊢ <;> exact hok

structure Sound (p : Pipebuf) (call : Call) (taken given : List UInt8) (e : Effect) : Prop where
  layout : Layout e.pipe
  stream : unread p ++ e.accepted = e.delivered ++ unread e.pipe
  ok : e.call.Ok (taken ++ e.accepted) (given ++ e.delivered) e.pipe
  locked : e.call.Holds → e.pipe.locked = true
  acquired : e.call.Holds → ¬call.Holds → p.locked = false
  untouched : p.locked = true → ¬call.Holds → e.pipe = p
  same : ∀ w, e.call = .writing w → ∃ w', call = .writing w' ∧ w'.data = w.data
  small : ∀ w, e.call = .writing w → w.Small → e.accepted = [] ∨ taken = []

variable {o : Oracle} {p p' : Pipebuf} {w w' : Write} {r : Read}
  {taken given mine moved : List UInt8} {pc : WritePc} {size seg : Nat}

theorem Sound.of_write (hlayout : Layout p') (hunread : unread p' = unread p)
    (hdata : w'.data = w.data) (hok : Write.Ok { w' with pc := pc } taken p')
    (hlocked : (Call.writing { w' with pc := pc }).Holds →
      p'.locked = true ∧ ((Call.writing w).Holds ∨ p.locked = false))
    (hkept : p.locked = true → ¬(Call.writing w).Holds → p' = p) :
    Sound p (.writing w) taken [] (w'.goto p' pc) where
  layout := hlayout
  stream := by simpa [Write.goto, Effect.quiet] using hunread.symm
  ok := ⟨by simpa [Write.goto, Effect.quiet] using hok, rfl⟩
  locked h := (hlocked h).1
  acquired h hnot := (hlocked h).2.resolve_left hnot
  untouched := hkept
  same _ h := ⟨w, rfl, by cases h; exact hdata.symm⟩
  small _ _ _ := .inl rfl

theorem Sound.of_write_goto (hlayout : Layout p) (hok : Write.Ok { w with pc := pc } taken p)
    (hnot : ¬(Call.writing { w with pc := pc }).Holds) :
      Sound p (.writing w) taken [] (w.goto p pc) :=
  .of_write hlayout rfl rfl hok (fun h => absurd h hnot) fun _ _ => rfl

theorem Write.Between.goto (h : w.Between taken) (pc : WritePc) :
    Write.Between { w with pc := pc } taken :=
  ⟨h.data, h.small⟩

/-- A call that gets `pipeio_lock` was alone with the pipe. -/
theorem unlocked_of_not {stop : Prop} (hfree : p.locked = true → stop) (hgo : ¬stop) :
    p.locked = false :=
  Bool.eq_false_iff.mpr (mt hfree hgo)

theorem Write.start_sound (hlayout : Layout p) (hpc : w.pc = .start) (hok : w.Ok taken p) :
    Sound p (.writing w) taken [] (w.start o p) := by
  have hbetween : w.Between taken := by
    simpa [Write.Ok, hpc] using hok
  unfold Write.start
  split
  · exact .of_write_goto hlayout (hbetween.goto _) id
  split
  · dsimp only
    split
    · exact .of_write_goto hlayout ⟨hbetween.goto _, choosePipespace_mem ..⟩ id
    · exact .of_write_goto hlayout (hbetween.goto _) id
  · exact .of_write_goto hlayout (hbetween.goto _) id

theorem Write.top_sound (hlayout : Layout p) (hpc : w.pc = .top) (hok : w.Ok taken p) :
    Sound p (.writing w) taken [] (w.top o p) := by
  have hbetween : w.Between taken := by
    simpa [Write.Ok, hpc] using hok
  unfold Write.top
  split
  · exact .of_write_goto hlayout (hbetween.goto .finished) id
  rename_i hleft
  dsimp only
  generalize hspace : (if i32 (sub32 p.size p.cnt) < w.left.length ∧ w.data.length ≤ pipeBuf then 0
    else i32 (sub32 p.size p.cnt)) = space
  split
  · rename_i hpos
    refine .of_write_goto hlayout ⟨hbetween.goto _, hleft, hpos, fun hsmall => ?_⟩ id
    by_contra hless
    -- Too little space for an atomic write counts as none.
    split at hspace
    · omega
    · rename_i hfree
      have hless : ¬(w.left.length : Int) ≤ space := hless
      exact hfree ⟨by omega, hsmall⟩
  · split
    · exact .of_write_goto hlayout (hbetween.goto .finished) id
    · exact .of_write_goto hlayout (hbetween.goto .top) id

theorem pipespace_ring {fresh : Fresh} (hsize : size ∈ pipesizeBlocks) (hcnt : p.cnt = 0)
    (hp' : pipespace fresh p size = some p') : (∃ b, Ring p' b) ∧ unread p' = unread p := by
  unfold pipespace at hp'
  split at hp'
  · cases hp'
  obtain ⟨mem, -, rfl⟩ := Option.map_eq_some_iff.mp hp'
  refine ⟨⟨_, rfl, rfl, hsize, Nat.zero_le _, ?_, ?_, fun _ => rfl⟩, ?_⟩
  · dsimp only
    omega
  · simp
  · simp [unread, hcnt, ringAt]

theorem expandPipespace_ring {fresh : Fresh} {target : Nat} {b : Buffer} (hring : Ring p b)
    (htarget : target ∈ pipesizeBlocks) :
    expandPipespace fresh p target = .ok none ∨
    ∃ p' b', expandPipespace fresh p target = .ok (some p') ∧
      Ring p' b' ∧ unread p' = unread p := by
  unfold expandPipespace
  split
  · exact .inr ⟨p, b, rfl, hring, rfl⟩
  rename_i hle
  cases fresh with
  | none => exact .inl rfl
  | some mem =>
    obtain ⟨p', b', hok, hring', hunread, -⟩ :=
      @Ring.expandInto p b ⟨target, mem⟩ hring htarget (Nat.lt_of_not_le hle)
    refine .inr ⟨p', b', ?_, hring', hunread⟩
    simp only [hring.buffer, hok]
    rfl

theorem Write.resize_sound {pipeSize : Nat} (hlayout : Layout p) (hpc : w.pc = .resize pipeSize)
    (hok : w.Ok taken p) (hfree : p.locked = true → o.interrupted = true) :
    ∃ e, w.resize o p pipeSize = .ok e ∧ Sound p (.writing w) taken [] e := by
  obtain ⟨hbetween, hsize⟩ : w.Between taken ∧ pipeSize ∈ pipesizeBlocks := by
    simpa [Write.Ok, hpc] using hok
  unfold Write.resize
  split
  · exact ⟨_, rfl, .of_write_goto hlayout (hbetween.goto .finished) id⟩
  rename_i hinterrupted
  have hunlocked := unlocked_of_not hfree hinterrupted
  have hdone : ∀ {p' b'}, Ring p' b' → unread p' = unread p →
      Sound p (.writing w) taken [] (w.goto p' (if p'.buffer.isNone then .finished else .top)) := by
    intro p' b' hring hunread
    have hsome : p'.buffer.isNone = false := by simp [hring.buffer]
    rw [hsome]
    exact .of_write (.inr ⟨b', hring⟩) hunread rfl (hbetween.goto .top) False.elim
      fun h => absurd h (by simp [hunlocked])
  split_ifs with hcnt
  · cases hp' : pipespace o.fresh p pipeSize with
    | none => exact ⟨_, rfl, .of_write_goto hlayout (hbetween.goto .finished) id⟩
    | some p' =>
      obtain ⟨⟨b', hring⟩, hunread⟩ := pipespace_ring hsize hcnt hp'
      exact ⟨_, rfl, hdone hring hunread⟩
  · have hle := hlayout.cnt_le
    obtain ⟨b, hring⟩ := hlayout.ring (by omega)
    obtain hnone | ⟨p', b', hsome, hring', hunread⟩ :=
      @expandPipespace_ring p o.fresh pipeSize b hring hsize
    · rw [hnone]
      exact ⟨_, rfl, .of_write_goto hlayout (hbetween.goto .finished) id⟩
    · rw [hsome]
      exact ⟨_, rfl, hdone hring' hunread⟩

theorem Layout.free_eq (h : Layout p) : i32 (sub32 p.size p.cnt) = p.size - p.cnt := by
  have hsize := h.size_le
  have hcnt := h.cnt_le
  rw [sub32_eq hcnt (by omega), i32_eq (by omega) (by omega)]
  omega

theorem Layout.round {size : Nat} (h : Layout p) (hpos : 0 < size) (hfits : p.cnt + size ≤ p.size) :
    Round p size (if size < sub32 p.size p.inp then size else sub32 p.size p.inp) := by
  have hsize := h.size_le
  obtain ⟨b, hring⟩ := h.ring (by omega)
  have hinp := hring.inp_le
  rw [sub32_eq hinp (by omega)]
  constructor
  · exact hpos
  · exact hfits
  · split <;> omega
  · split <;> omega
  · split <;> omega

theorem Write.lock_sound {space : Int} (hlayout : Layout p) (hpc : w.pc = .lock space)
    (hok : w.Ok taken p) (hfree : p.locked = true → o.interrupted = true) :
    ∃ e, w.lock o p space = .ok e ∧ Sound p (.writing w) taken [] e := by
  obtain ⟨hbetween, hleft, hspace, hsmall⟩ : w.Between taken ∧ w.left ≠ [] ∧ 0 < space ∧
      (w.Small → (w.left.length : Int) ≤ space) := by
    simpa [Write.Ok, hpc] using hok
  have hlength := length_pos_of_ne_nil hleft
  unfold Write.lock
  split
  · exact ⟨_, rfl, .of_write_goto hlayout (hbetween.goto .finished) id⟩
  rename_i hgo
  have hunlocked := unlocked_of_not (fun h => .inl (hfree h)) hgo
  rw [hlayout.free_eq]
  split
  · exact ⟨_, rfl, .of_write_goto hlayout (hbetween.goto .top) id⟩
  have hsize := hlayout.size_le
  have hshort : ¬((w.left.length : Int) < space ∧ longMax < w.left.length) := by
    unfold longMax
    omega
  obtain ⟨size, hsizeEq⟩ : ∃ size, size = if (w.left.length : Int) < space then w.left.length
    else space.toNat := ⟨_, rfl⟩
  have hround : Round p size (if size < sub32 p.size p.inp then size else sub32 p.size p.inp) := by
    apply hlayout.round
    · rw [hsizeEq]
      split <;> omega
    · rw [hsizeEq]
      split <;> omega
  rw [rejectIf, if_neg hshort, ok_bind]
  rw [← hsizeEq]
  refine ⟨_, rfl, .of_write (hlayout.setLocked true) (unread_setLocked ..) rfl
    ⟨hbetween.data, ⟨hround.pos, hround.fits, hround.short, hround.straight, hround.turn⟩, ?_, ?_⟩
    (fun _ => ⟨rfl, .inr hunlocked⟩) fun h => absurd h (by simp [hunlocked])⟩
  · show size ≤ 0 + w.left.length
    rw [hsizeEq]
    split <;> omega
  intro hsm
  have hall := hsmall hsm
  refine ⟨?_, ?_⟩
  · exact (hbetween.small hsm).resolve_right hleft
  · show size = 0 + w.left.length
    rw [hsizeEq]
    split <;> omega

theorem Round.size_pos (h : Round p size seg) : 0 < p.size := by
  have hpos := h.pos
  have hfits := h.fits
  omega

theorem Sound.of_moved (hlayout : Layout p') (hunread : unread p' = unread p)
    (hholds : (Call.writing w).Holds) (hlocked : p'.locked = true) (hdata : w'.data = w.data)
    (hok : Write.Ok { w' with pc := pc } taken p') :
    Sound p (.writing w) taken [] (w'.goto p' pc) :=
  .of_write hlayout hunread hdata hok (fun _ => ⟨hlocked, .inl hholds⟩) fun _ h => absurd hholds h

theorem Write.move_ok {b : Buffer} {a n : Nat} (hring : Ring p b) (hn : n ≤ w.left.length)
    (hend : a + n ≤ p.size) : w.move p a n =
      .ok ({ p with buffer := some { b with mem := storeBytes b.mem a (w.left.take n) } },
        { w with left := w.left.drop n }, w.left.take n) := by
  have hlength := length_take_of_le hn
  rw [Write.move, hring.checkBounds, ok_bind]
  dsimp only
  rw [Buffer.store_ok (by rw [hlength, hring.length]; exact hend), ok_bind]
  rfl

theorem Write.first_sound (hlayout : Layout p) (hpc : w.pc = .first size seg) (hok : w.Ok taken p)
    (hlocked : p.locked = true) :
    ∃ e, w.first p size seg = .ok e ∧ Sound p (.writing w) taken [] e := by
  have hwithin : w.Within taken p size seg [] := by simpa [Write.Ok, hpc] using hok
  have hround := hwithin.round
  obtain ⟨b, hring⟩ := hlayout.ring hround.size_pos
  have henough : size ≤ w.left.length := by simpa using hwithin.enough
  have hseg := hround.short.trans henough
  have hlength := length_take_of_le hseg
  have hholds : (Call.writing w).Holds := by simp [Call.Holds, hpc]
  rw [Write.first, Write.move_ok hring hseg hround.straight, ok_bind]
  refine ⟨_, rfl, .of_moved (.inr ⟨_, hring.setMem _⟩) ?_ hholds hlocked rfl ?_⟩
  · exact hring.unread_store fun i hi => hlength.symm ▸ (hring.apart hround hi).1
  refine ⟨⟨?_, hround.setMem _, ?_, fun hsmall => ⟨(hwithin.small hsmall).1, ?_⟩⟩, hlength, ?_⟩
  · simpa using hwithin.data
  · simpa [hlength, length_drop] using le_trans henough (by omega)
  · have hall := (hwithin.small hsmall).2
    simp only [hlength, length_drop]
    omega
  · have hstored := bytesAt_storeBytes b.mem p.inp (w.left.take seg)
    rwa [hlength] at hstored

theorem Write.second_sound (hlayout : Layout p) (hpc : w.pc = .second size seg moved)
    (hok : w.Ok taken p) (hlocked : p.locked = true) :
    ∃ e, w.second p size seg moved = .ok e ∧ Sound p (.writing w) taken [] e := by
  obtain ⟨hwithin, hmoved, hstored⟩ : w.Within taken p size seg moved ∧ moved.length = seg ∧
      bytesAt p.mem p.inp seg = moved := by simpa [Write.Ok, hpc] using hok
  have hround := hwithin.round
  have hfits := hround.fits
  have hshort := hround.short
  obtain ⟨b, hring⟩ := hlayout.ring hround.size_pos
  have henough := hwithin.enough
  have hrest : size - seg ≤ w.left.length := by omega
  have hlength := length_take_of_le hrest
  have hholds : (Call.writing w).Holds := by simp [Call.Holds, hpc]
  rw [Write.second, Write.move_ok hring hrest (by omega), ok_bind]
  refine ⟨_, rfl, .of_moved (.inr ⟨_, hring.setMem _⟩) ?_ hholds hlocked rfl ?_⟩
  · apply hring.unread_store
    intro i hi
    right
    rw [hlength, zero_add]
    exact (hring.apart hround hi).2
  · refine ⟨⟨?_, hround.setMem _, ?_, fun hsmall => ⟨(hwithin.small hsmall).1, ?_⟩⟩, ?_, ?_⟩
    · simpa using hwithin.data
    · simp only [length_append, hmoved, hlength, length_drop]
      omega
    · have hall := (hwithin.small hsmall).2
      simp only [length_append, hlength, length_drop]
      omega
    · simp only [length_append, hmoved, hlength]
      omega
    have hfront := bytesAt_storeBytes b.mem 0 (w.left.take (size - seg))
    rw [hlength] at hfront
    have hkept : bytesAt (storeBytes b.mem 0 (w.left.take (size - seg))) p.inp seg =
        bytesAt b.mem p.inp seg := by
      apply bytesAt_storeBytes_apart
      right
      rcases lt_or_ge seg size with hturn | hwhole
      · have hend := hround.turn hturn
        omega
      · omega
    rw [hring.mem_eq] at hstored
    show bytesAt (storeBytes b.mem 0 (w.left.take (size - seg))) p.inp seg ++
      bytesAt (storeBytes b.mem 0 (w.left.take (size - seg))) 0 (size - seg) = _
    rw [hkept, hstored, hfront]

theorem Write.update_sound (hlayout : Layout p) (hholds : (Call.writing w).Holds)
    (hwithin : w.Within taken p size seg moved) (hmoved : moved.length = size)
    (hstored : bytesAt p.mem p.inp seg ++ bytesAt p.mem 0 (size - seg) = moved) :
    ∃ e, w.update p size seg moved = .ok e ∧ Sound p (.writing w) taken [] e := by
  have hround := hwithin.round
  have hfits := hround.fits
  have hstraight := hround.straight
  have hturn := hround.turn
  have hsize := hlayout.size_le
  obtain ⟨b, hring⟩ := hlayout.ring hround.size_pos
  have hinp : add32 p.inp size = p.inp + size := add32_eq (by omega)
  have hcnt : add32 p.cnt size = p.cnt + size := add32_eq (by omega)
  have hgood : ¬(p.size < p.inp + size ∧ p.inp + size ≠ size - seg + p.size) := by omega
  unfold Write.update
  dsimp only
  rw [hinp, hcnt, rejectIf, if_neg hgood, ok_bind, rejectIf, if_neg (by omega), ok_bind]
  refine ⟨_, rfl, ⟨.inr ⟨b, hring.advance hround⟩, ?_, ⟨⟨?_, fun hsmall => ?_⟩, rfl⟩, False.elim,
    fun _ h => absurd hholds h, fun _ h => absurd hholds h, fun _ h =>
      ⟨w, rfl, by cases h; rfl⟩, ?_⟩⟩
  · have happend := hring.unread_append hround
    rw [hstored] at happend
    exact happend.symm
  · simpa using hwithin.data
  · right
    have hall := (hwithin.small hsmall).2
    have hnone : w.left = [] := length_eq_zero_iff.mp (by omega)
    exact hnone
  · intro w' hw' hsmall
    cases hw'
    exact .inr (hwithin.small hsmall).1

theorem Write.firstDone_sound (hlayout : Layout p) (hpc : w.pc = .firstDone size seg moved)
    (hok : w.Ok taken p) (hlocked : p.locked = true) :
    ∃ e, w.firstDone p size seg moved = .ok e ∧ Sound p (.writing w) taken [] e := by
  obtain ⟨hwithin, hmoved, hstored⟩ : w.Within taken p size seg moved ∧ moved.length = seg ∧
      bytesAt p.mem p.inp seg = moved := by simpa [Write.Ok, hpc] using hok
  have hround := hwithin.round
  have hholds : (Call.writing w).Holds := by simp [Call.Holds, hpc]
  unfold Write.firstDone
  by_cases hturn : seg < size
  · have hend := hround.turn hturn
    rw [if_pos hturn, rejectIf, if_neg (by omega), ok_bind]
    refine ⟨_, rfl, .of_moved hlayout rfl hholds hlocked rfl ?_⟩
    exact ⟨{ hwithin with round := hround }, hmoved, hstored⟩
  rw [if_neg hturn]
  have hseg := le_antisymm hround.short (Nat.le_of_not_lt hturn)
  subst hseg
  apply Write.update_sound hlayout hholds hwithin hmoved
  rw [hstored, Nat.sub_self]
  exact append_nil _

theorem Sound.of_read {locked : Bool} {pc : ReadPc} {r' : Read} (hlayout : Layout p)
    (hok : Read.Ok { r' with pc := pc } given p)
    (hlocked : (Call.reading { r' with pc := pc }).Holds →
      locked = true ∧ ((Call.reading r).Holds ∨ p.locked = false))
    (hkept : p.locked = true → ¬(Call.reading r).Holds → locked = true) :
    Sound p (.reading r) [] given (r'.goto { p with locked := locked } pc) where
  layout := hlayout.setLocked locked
  stream := by simp [Read.goto, Effect.quiet, unread_setLocked]
  ok := by
    have hgiven := append_nil given
    exact ⟨rfl, hgiven.symm ▸ hok⟩
  locked h := (hlocked h).1
  acquired h hnot := (hlocked h).2.resolve_left hnot
  untouched h hnot := by
    have heq : locked = p.locked := (hkept h hnot).trans h.symm
    rw [heq]
    rfl
  same _ h := by cases h
  small _ h := by cases h

theorem Read.lock_sound (hlayout : Layout p) (hpc : r.pc = .lock) (hok : r.Ok given p)
    (hfree : p.locked = true → o.interrupted = true) :
    Sound p (.reading r) [] given (r.lock o p) := by
  have hgot : r.got = given := by simpa [Read.Ok, hpc] using hok
  unfold Read.lock
  split
  · exact @Sound.of_read _ _ _ p.locked _ _ hlayout hgot False.elim fun h _ => h
  rename_i hgo
  have hunlocked := unlocked_of_not (fun h => .inl (hfree h)) hgo
  exact .of_read hlayout hgot (fun _ => ⟨rfl, .inr hunlocked⟩) fun _ _ => rfl

theorem Read.top_sound (hlayout : Layout p) (hpc : r.pc = .top) (hok : r.Ok given p)
    (hlocked : p.locked = true) : Sound p (.reading r) [] given (r.top o p) := by
  have hgot : r.got = given := by simpa [Read.Ok, hpc] using hok
  have hholds : (Call.reading r).Holds := by simp [Call.Holds, hpc]
  unfold Read.top
  split
  · exact .of_read hlayout hgot False.elim fun _ h => absurd hholds h
  split
  · rename_i hcnt
    have hle := hlayout.cnt_le
    have hsize := hlayout.size_le
    obtain ⟨b, hring⟩ := hlayout.ring (by omega)
    have hout := hring.out
    dsimp only
    rw [sub32_eq hout.le (by omega)]
    obtain ⟨n, hn⟩ : ∃ n, n = min intMax
      (min (if p.cnt < p.size - p.out then p.cnt else p.size - p.out) r.resid) := ⟨_, rfl⟩
    have hbounds : 0 < n ∧ n ≤ p.cnt ∧ p.out + n ≤ p.size := by
      unfold intMax at hn
      split at hn <;> omega
    rw [← hn]
    exact @Sound.of_read _ _ _ p.locked _ _ hlayout ⟨hgot, hbounds⟩ (fun _ =>
      ⟨hlocked, .inl hholds⟩)
      fun _ h => absurd hholds h
  · split <;> exact .of_read hlayout hgot False.elim fun _ h => absurd hholds h

theorem Read.copy_sound (hlayout : Layout p) (hpc : r.pc = .copy size) (hok : r.Ok given p)
    (hlocked : p.locked = true) : ∃ e, r.copy p size = .ok e ∧ Sound p (.reading r) [] given e := by
  obtain ⟨hgot, hpos, hle, hend⟩ : r.got = given ∧ 0 < size ∧
      size ≤ p.cnt ∧ p.out + size ≤ p.size := by
    simpa [Read.Ok, hpc] using hok
  have hholds : (Call.reading r).Holds := by simp [Call.Holds, hpc]
  obtain ⟨b, hring⟩ := hlayout.ring (by omega)
  rw [Read.copy, hring.checkBounds, ok_bind,
    Buffer.load_ok (by rw [hring.length]; exact hend), ok_bind]
  refine ⟨_, rfl, @Sound.of_read _ _ _ p.locked _ _ hlayout ?_ (fun _ => ⟨hlocked, .inl hholds⟩)
    fun _ h => absurd hholds h⟩
  rw [← hring.mem_eq]
  exact ⟨hgot ▸ rfl, hpos, hle, hend, rfl⟩

theorem Read.copied_sound (hlayout : Layout p) (hpc : r.pc = .copied size moved)
    (hok : r.Ok given p) (hlocked : p.locked = true) :
    Sound p (.reading r) [] given (r.copied p size moved) := by
  obtain ⟨hgot, hpos, hle, hend, hmoved⟩ : r.got = given ++ moved ∧ 0 < size ∧ size ≤ p.cnt ∧
      p.out + size ≤ p.size ∧ moved = bytesAt p.mem p.out size := by
    simpa [Read.Ok, hpc] using hok
  have hholds : (Call.reading r).Holds := by simp [Call.Holds, hpc]
  have hcnt := hlayout.cnt_le
  have hsize := hlayout.size_le
  obtain ⟨b, hring⟩ := hlayout.ring (by omega)
  have hpipe : (r.copied p size moved).pipe = p.consume size := by
    simp [Read.copied, add32_eq (show p.out + size < 2 ^ 32 by omega),
      sub32_eq hle (show p.cnt < 2 ^ 32 by omega), Pipebuf.consume]
  constructor
  · rw [hpipe]
    exact .inr ⟨b, hring.consume hle hend⟩
  · rw [hpipe, unread_consume hle hend, ← hmoved]
    exact append_nil _
  · exact ⟨rfl, hgot⟩
  · intro _
    exact hlocked
  · exact fun _ h => absurd hholds h
  · exact fun _ h => absurd hholds h
  · intro w h
    cases h
  · intro w h
    cases h

end XnuXzs.Pipe
