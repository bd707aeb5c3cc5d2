import XnuXzs.OSObject.Balance
import XnuXzs.OSObject.Graph

/-!
# Records that come back

A round of the decoder on a record of the serializer, when every allocation is
granted: the object that it makes looks like the one that was written, without
its members yet.
-/

namespace XnuXzs.OSObject

open Lib List

structure Env.Grants (env : Env) : Prop where
  object : ∀ n, env.object n = true
  member : ∀ n, env.member n = true
  objs : ∀ n, (env.objs n).isSome
  stack : ∀ n, (env.stack n).isSome

/-- A collection without its members; a leaf as it is. -/
def View.emptied (v : View) : View :=
  match v.shape with
  | some K => .object (K.fill [])
  | none => v

/-- The word of a record: its type, its length and its mark. -/
def keyWord (code len : Nat) (last : Bool) : Nat :=
  if last then 2 ^ 24 * code ||| len ||| 2 ^ 31 else 2 ^ 24 * code ||| len

theorem keyWord_eq {code len : Nat} (hcode : code < 2 ^ 7) (hlen : len < 2 ^ 24) (last : Bool) :
    keyWord code len last = (if last then 2 ^ 31 else 0) + 2 ^ 24 * code + len := by
  have hor := Nat.two_pow_add_eq_or_of_lt hlen code
  have hmark := Nat.two_pow_add_eq_or_of_lt (i := 31) (b := 2 ^ 24 * code + len) (by omega) 1
  rw [mul_one] at hmark
  unfold keyWord
  cases last with
  | false => simp only [Bool.false_eq_true, if_false, zero_add, ← hor]
  | true => simp only [if_true, ← hor, Nat.or_comm _ (2 ^ 31), ← hmark, add_assoc]

structure KeySpec (code len : Nat) (last : Bool) (key : Nat) : Prop where
  lt : key < 2 ^ 32
  len : key % 2 ^ 24 = len
  code : key / 2 ^ 24 % 2 ^ 7 = code
  last : decide (2 ^ 31 ≤ key) = last

theorem keyWord_spec {code len : Nat} (hcode : code < 2 ^ 7) (hlen : len < 2 ^ 24) (last : Bool) :
    KeySpec code len last (keyWord code len last) := by
  rw [keyWord_eq hcode hlen]
  cases last with
  | false | true => exact ⟨by simp; omega, by simp; omega, by simp; omega, by simp; omega⟩

theorem padded_length (l : List UInt8) : (padded l).length = (l.length + 3) / 4 * 4 := by
  rw [padded, length_append, length_replicate]
  omega

theorem keyBytes_length (key : Nat) (last : Bool) : (keyBytes key last).length = 4 :=
  leBytes_length ..

theorem recordBytes_length (record : Nat × List UInt8) (last : Bool) :
    (recordBytes record last).length = 4 + 4 * ((record.2.length + 3) / 4) := by
  rw [recordBytes, padded_length, length_append, keyBytes_length]
  omega

/-- What a record's bytes give to the decoder. -/
structure RecordAt (buf : List UInt8) (pos key : Nat) (bits : List UInt8) : Prop where
  inside : pos + 4 + 4 * ((bits.length + 3) / 4) ≤ buf.length
  word : wordFrom buf pos = .ok key
  bits : (buf.drop (pos + 4)).take bits.length = bits

theorem record_spec {buf : List UInt8} {pos len : Nat} {bits : List UInt8} {last : Bool}
    (code : Nat) (hcode : code < 2 ^ 7) (hlen : len < 2 ^ 24)
    (hseg : SegmentAt buf pos (recordBytes (2 ^ 24 * code ||| len, bits) last)) :
    ∃ key, RecordAt buf pos key bits ∧ KeySpec code len last key := by
  have hkey := keyWord_spec hcode hlen last
  have hinside := hseg.length_le
  rw [recordBytes_length] at hinside
  dsimp only at hinside
  obtain ⟨pre, post, rfl, rfl⟩ := hseg
  refine ⟨_, ⟨by omega, ?_, ?_⟩, hkey⟩
  · rw [wordFrom_ok (by omega)]
    simp only [recordBytes, padded, append_assoc, drop_left]
    rw [take_append_of_le_length (by rw [keyBytes_length]),
      take_of_length_le (by rw [keyBytes_length]), keyBytes, leValue_leBytes]
    exact congrArg Except.ok (Nat.mod_eq_of_lt hkey.lt)
  · simp only [recordBytes, padded, append_assoc]
    rw [← drop_drop, drop_left, drop_append_of_le_length (by rw [keyBytes_length]),
      drop_of_length_le (by rw [keyBytes_length]), nil_append, take_left]

/-- A new object that looks like `v` without its members. -/
structure FetchedAs (h : Heap) (v : View) (next : Nat) (f : Fetched) : Prop where
  isRef : f.isRef = false
  hasLength : f.hasLength = false
  pos : f.pos = next
  adds : Adds h f.heap f.o
  balanced : ∀ held, Balanced counting h held → Balanced counting f.heap (f.o.counted ++ held)
  view : view f.heap f.o = some v.emptied
  opens : f.opens = if v.members = [] then none else some h.length
  cell : f.o = .cell h.length ∨ v.shape = none ∧
    ((∃ name, v = .object (.symbol name)) ∨ ∃ value, v = .boolean value)

section Fetching

variable {env : Env} {buf name : List UInt8} {h : Heap} {objs : List Ref} {pos key len : Nat}
  {last : Bool}

theorem view_alloc (h : Heap) (o : Obj) : view (alloc h o).2 (alloc h o).1 = some (.object o) := by
  simp [view, alloc]

theorem fetchCollection_as (henv : env.Grants) {K : Shape} {v : View} (hshape : v.shape = some K)
    (hlen : len = 0 ↔ v.members = []) : ∃ f,
      fetchCollection env false h pos (pos + 4) len (K.fill []) = some f ∧
      FetchedAs h v (pos + 4) f := by
  simp only [fetchCollection, henv.object, if_true]
  refine ⟨_, rfl, rfl, rfl, rfl, alloc_adds h _, fun _ hb => alloc_balanced hb ?_, ?_, ?_, .inl rfl⟩
  · cases K <;> rfl
  · rw [view_alloc, View.emptied, hshape]
  · simp [hlen]

theorem fetchLeaf_as (henv : env.Grants) {o : Obj} {next : Nat}
    (hshape : (View.object o).shape = none) (hmembers : o.members = []) :
    ∃ f, fetchLeaf env h pos next o = some f ∧ FetchedAs h (.object o) next f := by
  simp only [fetchLeaf, henv.object, if_true]
  refine ⟨_, rfl, rfl, rfl, rfl, alloc_adds h _, fun _ hb => alloc_balanced hb hmembers, ?_, ?_,
    .inl rfl⟩
  · rw [view_alloc, View.emptied, hshape]
  · simp [View.members, hmembers]

theorem symbolWithCString_as {name : List UInt8} {permanent : Bool}
    (hlen : name.length < kMaxStringLength) : ∃ r h',
      symbolWithCString h permanent true name = .ok (some (r, h')) ∧
      Adds h h' r ∧ (∀ held, Balanced counting h held → Balanced counting h' (r.counted ++ held)) ∧
      view h' r = some (.object (.symbol name)) := by
  simp only [symbolWithCString, if_neg (not_le.mpr hlen)]
  rcases hfind : findSymbol h name with _ | i
  · cases permanent with
    | true => exact ⟨.permanent name, h, rfl, .inl rfl, fun _ => id, rfl⟩
    | false => exact ⟨_, _, rfl, alloc_adds h _, fun _ hb => alloc_balanced hb rfl, view_alloc h _⟩
  obtain ⟨c, hc, hbody, hlive⟩ := findSymbol_spec hfind
  refine ⟨.cell i, h.set i (c.retain counting), ?_, .inl (bodies_retain hc),
    fun _ hb => hb.retain hc hlive, ?_⟩
  · simp only [retain, live_of_getElem? hc hlive]
    rfl
  · obtain ⟨hlt, -⟩ := List.getElem?_eq_some_iff.mp hc
    simp [view, getElem?_set_self hlt, Cell.retain_body, hbody]

theorem takeWhile_append (hname : 0 ∉ name) (rest : List UInt8) :
    (name ++ rest).takeWhile (· ≠ 0) = name ++ rest.takeWhile (· ≠ 0) := by
  apply takeWhile_append_of_pos
  intro x hx
  simp only [ne_eq, decide_not, Bool.not_eq_eq_eq_not, Bool.not_true, decide_eq_false_iff_not]
  rintro rfl
  exact hname hx

/-- The record of an object gives an object that looks like it. -/
def Fetches (env : Env) (buf : List UInt8) (h : Heap) (objs : List Ref) (pos : Nat) (v : View)
    (last : Bool) : Prop :=
  ∃ key f, wordFrom buf pos = .ok key ∧ decide (2 ^ 31 ≤ key) = last ∧
    fetch env buf false h objs pos key = .ok (some f) ∧
    FetchedAs h v (pos + (recordBytes v.record last).length) f

theorem fetches_boolean (value : Bool)
    (hseg : SegmentAt buf pos (recordBytes (View.boolean value).record last)) :
    Fetches env buf h objs pos (.boolean value) last := by
  have hlen : value.toNat < 2 ^ 24 := lt_of_lt_of_le (Bool.toNat_lt value) (by norm_num)
  obtain ⟨key, hrec, hkey⟩ := record_spec 0x0b (by norm_num) hlen hseg
  have hvalue : decide (value.toNat ≠ 0) = value := by cases value <;> rfl
  refine ⟨key, { heap := h, pos := pos + 4, o := .boolean value, isRef := false, hasLength := false
                 opens := none }, hrec.word, hkey.last, ?_, ?_⟩
  · simp only [fetch, Tag.ofKey, hkey.code, hkey.len, hvalue]
    rfl
  · exact ⟨rfl, rfl, by simp [recordBytes_length, View.record], .inl rfl, fun _ => id, rfl, rfl,
      .inr ⟨rfl, .inr ⟨value, rfl⟩⟩⟩

section

variable (henv : env.Grants) {bytes : List UInt8}
include henv

theorem fetches_collection {v : View} {K : Shape} (hshape : v.shape = some K)
    (hsmall : v.Small) (hseg : SegmentAt buf pos (recordBytes v.record last)) :
    Fetches env buf h objs pos v last := by
  -- the record is the first word alone
  have hword (hbits : v.record.2 = []) : pos + (recordBytes v.record last).length = pos + 4 := by
    rw [recordBytes_length, hbits]
    rfl
  rcases v with value | o
  · cases hshape
  cases o with
  | dictionary entries =>
    obtain ⟨key, hrec, hkey⟩ := record_spec 0x01 (by norm_num) hsmall hseg
    obtain ⟨f, hf, has⟩ := @fetchCollection_as env h pos entries.length henv .dictionary
      (.object (.dictionary entries)) rfl (by cases entries <;> simp [View.members, Obj.members])
    refine ⟨key, f, hrec.word, hkey.last, ?_, by rw [hword rfl]; exact has⟩
    simp only [fetch, Tag.ofKey, hkey.code, hkey.len]
    exact congrArg Except.ok hf
  | array members =>
    obtain ⟨key, hrec, hkey⟩ := record_spec 0x02 (by norm_num) hsmall hseg
    obtain ⟨f, hf, has⟩ := @fetchCollection_as env h pos members.length henv .array
      (.object (.array members)) rfl length_eq_zero_iff
    refine ⟨key, f, hrec.word, hkey.last, ?_, by rw [hword rfl]; exact has⟩
    simp only [fetch, Tag.ofKey, hkey.code, hkey.len]
    exact congrArg Except.ok hf
  | set members =>
    obtain ⟨key, hrec, hkey⟩ := record_spec 0x03 (by norm_num) hsmall hseg
    obtain ⟨f, hf, has⟩ := @fetchCollection_as env h pos members.length henv .set
      (.object (.set members)) rfl length_eq_zero_iff
    refine ⟨key, f, hrec.word, hkey.last, ?_, by rw [hword rfl]; exact has⟩
    simp only [fetch, Tag.ofKey, hkey.code, hkey.len]
    exact congrArg Except.ok hf
  | _ => cases hshape

theorem fetches_number {value size : Nat}
    (hsize : size = 8 ∨ size = 16 ∨ size = 32 ∨ size = 64) (hvalue : value < 2 ^ size)
    (hseg : SegmentAt buf pos (recordBytes (View.object (.number value size)).record last)) :
    Fetches env buf h objs pos (.object (.number value size)) last := by
  obtain ⟨key, hrec, hkey⟩ := record_spec 0x04 (by norm_num) (by omega) hseg
  obtain ⟨f, hf, has⟩ := @fetchLeaf_as env h pos henv (.number value size) (pos + 4 + 8) rfl rfl
  have hlength : (leBytes 8 value).length = 8 := leBytes_length ..
  refine ⟨key, f, hrec.word, hkey.last, ?_, ?_⟩
  · have hinside := hrec.inside
    have hbits := hrec.bits
    rw [hlength] at hinside hbits
    -- the two words are the halves of the value
    have hlow : (buf.drop (pos + 4)).take 4 = leBytes 4 value := by
      have := congrArg (List.take 4) hbits
      rwa [take_take] at this
    have hhigh : (buf.drop (pos + 4 + 4)).take 4 = leBytes 4 (value / 256 ^ 4) := by
      have hdrop : (leBytes 8 value).drop 4 = leBytes 4 (value / 256 ^ 4) := by
        simp only [leBytes, drop_succ_cons, drop_zero, Nat.div_div_eq_div_mul]
        norm_num
      rw [← hdrop, ← hbits, drop_take, drop_drop]
    have hwide : value < 2 ^ 64 :=
      lt_of_lt_of_le hvalue (Nat.pow_le_pow_right (by norm_num) (by omega))
    have hnumber : numberOf env (value / 256 ^ 4 % 256 ^ 4 * 2 ^ 32 + value % 256 ^ 4) size =
        some (.number value size) := by
      have hvalue' : value / 256 ^ 4 % 256 ^ 4 * 2 ^ 32 + value % 256 ^ 4 = value := by omega
      rw [hvalue', numberOf, if_neg (by omega), if_neg (by omega), if_pos (by omega),
        Nat.mod_eq_of_lt hvalue]
    simp only [fetch, Tag.ofKey, hkey.code, hkey.len]
    rw [if_neg (by omega), wordFrom_ok (by omega), wordFrom_ok (by omega), hlow, hhigh]
    simp only [leValue_leBytes, bind, Except.bind, hnumber, Option.bind_some, hf]
    rfl
  · have hbytes : (View.object (.number value size)).record.2.length = 8 := hlength
    rw [recordBytes_length, hbytes]
    exact has

theorem fetches_data (hlen : bytes.length < 2 ^ 24)
    (hseg : SegmentAt buf pos (recordBytes (View.object (.data bytes true)).record last)) :
    Fetches env buf h objs pos (.object (.data bytes true)) last := by
  obtain ⟨key, hrec, hkey⟩ := record_spec 0x0a (by norm_num) hlen hseg
  obtain ⟨f, hf, has⟩ := @fetchLeaf_as env h pos henv (.data bytes true)
    (pos + 4 + 4 * ((bytes.length + 3) / 4)) rfl rfl
  have hinside := hrec.inside
  refine ⟨key, f, hrec.word, hkey.last, ?_, ?_⟩
  · simp only [fetch, Tag.ofKey, hkey.code, hkey.len]
    rw [if_neg (by omega), bytesFrom_ok (by omega), hrec.bits]
    exact congrArg Except.ok hf
  · rw [recordBytes_length, ← add_assoc]
    exact has

theorem fetches_string (hmax : bytes.length < kMaxStringLength) (hplain : 0 ∉ bytes)
    (hseg : SegmentAt buf pos (recordBytes (View.object (.string bytes)).record last)) :
    Fetches env buf h objs pos (.object (.string bytes)) last := by
  have hlen : bytes.length < 2 ^ 24 := hmax.trans (by decide)
  obtain ⟨key, hrec, hkey⟩ := record_spec 0x09 (by norm_num) hlen hseg
  obtain ⟨f, hf, has⟩ := @fetchLeaf_as env h pos henv (.string bytes)
    (pos + 4 + 4 * ((bytes.length + 3) / 4)) rfl rfl
  have hinside := hrec.inside
  have hall : bytes.takeWhile (· ≠ 0) = bytes := by
    have := takeWhile_append hplain []
    rwa [append_nil, takeWhile_nil, append_nil] at this
  refine ⟨key, f, hrec.word, hkey.last, ?_, ?_⟩
  · simp only [fetch, Tag.ofKey, hkey.code, hkey.len]
    rw [if_neg (by omega), if_neg (by omega), cStringFrom_ok (by omega), hrec.bits, hall]
    exact congrArg Except.ok hf
  · rw [recordBytes_length, ← add_assoc]
    exact has

theorem fetches_symbol (hmax : name.length < kMaxStringLength) (hname : 0 ∉ name)
    (hseg : SegmentAt buf pos (recordBytes (View.object (.symbol name)).record last)) :
    Fetches env buf h objs pos (.object (.symbol name)) last := by
  have hlen : name.length + 1 < 2 ^ 24 := by
    have : kMaxStringLength < 2 ^ 24 := by decide
    omega
  obtain ⟨key, hrec, hkey⟩ := record_spec 0x08 (by norm_num) hlen hseg
  have hinside := hrec.inside
  have hbits := hrec.bits
  have hlength : (name ++ [(0 : UInt8)]).length = name.length + 1 := by
    rw [length_append, length_singleton]
  rw [hlength] at hinside hbits
  have hbuf : buf.drop (pos + 4) = name ++ 0 :: buf.drop (pos + 4 + (name.length + 1)) := by
    conv_lhs => rw [← take_append_drop (name.length + 1) (buf.drop (pos + 4)), hbits]
    rw [drop_drop, append_assoc, singleton_append]
  have hlast : (buf.drop (pos + 4 + (name.length + 1) - 1)).take 1 = [0] := by
    rw [show pos + 4 + (name.length + 1) - 1 = pos + 4 + name.length by omega, ← drop_drop,
      hbuf, drop_left]
    rfl
  have hread : cStringFrom buf (pos + 4) kMaxStringLength = .ok name := by
    obtain ⟨m, hm⟩ : ∃ m, kMaxStringLength - name.length = m + 1 :=
      ⟨kMaxStringLength - name.length - 1, by omega⟩
    rw [cStringFrom_terminated (by omega) (by omega) hlast, hbuf, take_append,
      take_of_length_le hmax.le, hm, take_succ_cons, takeWhile_append hname]
    simp
  obtain ⟨r, h', hmade, hadds, hbalanced, hview⟩ :=
    @symbolWithCString_as h name (env.permanent name) hmax
  refine ⟨key, { heap := h', pos := pos + 4 + 4 * ((name.length + 1 + 3) / 4), o := r
                 isRef := false, hasLength := false, opens := none }, hrec.word, hkey.last, ?_, ?_⟩
  · simp only [fetch, Tag.ofKey, hkey.code, hkey.len]
    rw [if_neg (by omega), if_neg (by omega), bytesFrom_ok (by omega), hlast, hread]
    simp only [bind, Except.bind, henv.object, hmade]
    rfl
  · refine ⟨rfl, rfl, ?_, hadds, hbalanced, hview, rfl, .inr ⟨rfl, .inl ⟨name, rfl⟩⟩⟩
    have hbytes : (View.object (.symbol name)).record.2.length = name.length + 1 := hlength
    rw [recordBytes_length, hbytes, add_assoc]

/-- Every record of a well-formed object comes back as such an object. -/
theorem fetches_of_segment {g : Heap} {v : View} (hwf : v.WellFormed g)
    (hsmall : v.Small) (hplain : v.Plain) (hseg : SegmentAt buf pos (recordBytes v.record last)) :
    Fetches env buf h objs pos v last := by
  rcases v with value | o
  · exact fetches_boolean value hseg
  cases o with
  | dictionary | array | set =>
    exact fetches_collection henv rfl hsmall hseg
  | number => exact fetches_number henv hwf.1 hwf.2 hseg
  | symbol => exact fetches_symbol henv hwf.2 hwf.1 hseg
  | string => exact fetches_string henv hwf hplain hseg
  | data bytes serializable =>
    obtain rfl : serializable = true := hplain
    exact fetches_data henv hsmall hseg

end

theorem fetch_tag {tagIdx : Nat} {o : Ref} (ho : objs[tagIdx]? = some o) (hlen : tagIdx < 2 ^ 24)
    (hseg : SegmentAt buf pos (recordBytes (0x0c000000 ||| tagIdx, []) last)) :
    ∃ key, wordFrom buf pos = .ok key ∧ decide (2 ^ 31 ≤ key) = last ∧
      fetch env buf false h objs pos key = .ok (some { heap := h, pos := pos + 4, o, isRef := true
                                                       hasLength := false, opens := none }) := by
  obtain ⟨key, hrec, hkey⟩ := record_spec 0x0c (by norm_num) hlen hseg
  refine ⟨key, hrec.word, hkey.last, ?_⟩
  simp only [fetch, Tag.ofKey, hkey.code, hkey.len, ho]
  rfl

end Fetching

end XnuXzs.OSObject
