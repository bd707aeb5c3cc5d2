import XnuXzs.Frag6.Sound

/-!
# Runs of the reassembly of IPv6 fragments
-/

namespace XnuXzs.Frag6

open Lib List

variable {q r : Ip6q} {m : Packet} {s : Queues} {k : Key}

structure Ok (s : Queues) : Prop where
  queue : ∀ q ∈ s, QueueOk q
  keys : (s.map Ip6q.key).Nodup

theorem map_key_replace {new : Option Ip6q} (hnew : ∀ q ∈ new, q.key = k) :
    ((replace k new s).map Ip6q.key).Sublist (s.map Ip6q.key) := by
  induction s with
  | nil => exact List.Sublist.slnil
  | cons q qs ih =>
    rw [replace]
    split
    · next hq =>
      cases new with
      | none => exact sublist_cons_self ..
      | some r =>
        have := hnew r rfl
        simp only [Option.toList_some, singleton_append, map_cons, this, hq]
        exact List.Sublist.refl _
    · exact ih.cons_cons _

theorem mem_replace {new : Option Ip6q} (h : q ∈ replace k new s) : q ∈ new ∨ q ∈ s := by
  induction s with
  | nil => cases h
  | cons r rs ih =>
    rw [replace] at h
    split at h
    · rcases mem_append.mp h with h | h
      · exact .inl (Option.mem_toList.mp h)
      · exact .inr (mem_cons_of_mem r h)
    · rcases mem_cons.mp h with rfl | h
      · exact .inr mem_cons_self
      · exact (ih h).imp_right (mem_cons_of_mem r)

theorem mem_replace_of_ne {new : Option Ip6q} (h : q ∈ s) (hk : q.key ≠ k) :
    q ∈ replace k new s := by
  induction s with
  | nil => cases h
  | cons r rs ih =>
    rw [replace]
    split
    · next hr =>
      rcases mem_cons.mp h with rfl | h
      · exact absurd hr hk
      · exact mem_append_right _ h
    · rcases mem_cons.mp h with rfl | h
      · exact mem_cons_self
      · exact mem_cons_of_mem r (ih h)

theorem mem_replace_self (h : ∃ q ∈ s, q.key = k) : r ∈ replace k (some r) s := by
  induction s with
  | nil =>
    obtain ⟨q, hq, -⟩ := h
    cases hq
  | cons q qs ih =>
    rw [replace]
    split
    · exact mem_cons_self
    next hq =>
    obtain ⟨x, hx, hk⟩ := h
    rcases mem_cons.mp hx with rfl | hx
    · exact absurd hk hq
    · exact mem_cons_of_mem q (ih ⟨x, hx, hk⟩)

theorem Ok.note (h : Ok s) (m : Packet) : Ok (note s m) := by
  refine ⟨fun q hq => ?_, ?_⟩
  · obtain ⟨r, hr, rfl⟩ := mem_map.mp hq
    have hok := h.queue r hr
    split
    · next hkey =>
      refine ⟨fun hclean => { hok.clean hclean with }, fun g hg =>
        mem_append_left _ (hok.seen g hg), ?_⟩
      intro x hx
      rcases mem_append.mp hx with hx | hx
      · exact hok.key x hx
      · rw [mem_singleton.mp hx]
        exact hkey.symm
    · exact hok
  · have hkeys : (Frag6.note s m).map Ip6q.key = s.map Ip6q.key := by
      rw [Frag6.note, map_map]
      refine map_congr_left fun q _ => ?_
      simp only [Function.comp]
      split <;> rfl
    rw [hkeys]
    exact h.keys

theorem seen_of_note (hr : r ∈ note s m) (hk : r.key = m.key) : m ∈ r.seen := by
  obtain ⟨x, -, rfl⟩ := mem_map.mp hr
  split at hk
  · next hx =>
    rw [if_pos hx]
    exact mem_append_right _ (mem_singleton_self m)
  · next hx => exact absurd hk hx

theorem Ok.finish (h : Ok s) {o : Outcome} (ho : o.Ok k) :
    Ok (finish s k o).1 ∧ ∀ r ∈ (finish s k o).2, Good r.1 r.2 := by
  have hreplace : ∀ new : Option Ip6q, (∀ q ∈ new, QueueOk q ∧ q.key = k) →
      Ok (replace k new s) := by
    intro new hnew
    refine ⟨fun q hq => ?_, (map_key_replace fun q hq => (hnew q hq).2).nodup h.keys⟩
    exact (mem_replace hq).elim (fun hq => (hnew q hq).1) (h.queue q)
  cases o with
  | keep q =>
    refine ⟨hreplace _ fun r hr => ?_, fun r hr => by cases hr⟩
    cases hr
    exact ho
  | free => exact ⟨hreplace none fun r hr => (by cases hr), fun r hr => by cases hr⟩
  | deliver w q =>
    refine ⟨hreplace none fun r hr => (by cases hr), fun r hr => ?_⟩
    cases hr
    exact ho.1

theorem QueueOk.new (m : Packet) : QueueOk (.new m) := by
  refine ⟨fun _ => ⟨List.Pairwise.nil, ?_, ?_, ?_, absurd rfl, ?_⟩, ?_, fun x hx => ?_⟩
  · exact fun _ hf => nomatch hf
  · exact fun _ hf => nomatch hf
  · exact fun _ hf => nomatch hf
  · exact fun _ hf => nomatch hf
  · exact fun _ hf => nomatch hf
  · rw [mem_singleton.mp hx]
    rfl

theorem Ok.input (h : Ok s) (o : Luck) (m : Packet) :
    Ok (frag6Input o s m).1 ∧ ∀ r ∈ (frag6Input o s m).2, Good r.1 r.2 := by
  have hnote := h.note m
  have hnone : ∀ r ∈ (none : Option (Whole × Ip6q)), Good r.1 r.2 := fun r hr => by cases hr
  rw [frag6Input]
  split
  · exact ⟨hnote, hnone⟩
  split
  · exact ⟨hnote, hnone⟩
  split
  · exact ⟨hnote, hnone⟩
  split
  · next q hfind =>
    have hq := mem_of_find?_eq_some hfind
    have hkey : q.key = m.key := by simpa using find?_some hfind
    exact hnote.finish (hkey ▸ (hnote.queue q hq).input (seen_of_note hq hkey)
      o.frag o.split false nofun)
  next hfind =>
  split
  · exact ⟨hnote, hnone⟩
  have hnew : Ok (.new m :: Frag6.note s m) := by
    refine ⟨fun q hq => ?_, nodup_cons.mpr ⟨fun hmem => ?_, hnote.keys⟩⟩
    · rcases mem_cons.mp hq with rfl | hq
      · exact .new m
      · exact hnote.queue q hq
    obtain ⟨q, hq, hkey⟩ := mem_map.mp hmem
    have := find?_eq_none.mp hfind q hq
    simp only [decide_eq_true_eq] at this
    exact this hkey
  exact hnew.finish ((QueueOk.new m).input (m := m) (mem_singleton_self m) o.frag o.split true
    fun _ => rfl)

theorem Ok.timeout (h : Ok s) (limit : Option Nat) : Ok (frag6Timeout limit s) := by
  have haged : Ok (s.map fun q => { q with ttl := (q.ttl + 255) % 256 }) := by
    refine ⟨fun q hq => ?_, ?_⟩
    · obtain ⟨r, hr, rfl⟩ := mem_map.mp hq
      have hok := h.queue r hr
      exact ⟨fun hclean => { hok.clean hclean with }, hok.seen, hok.key⟩
    · rw [map_map]
      exact h.keys
  have hsub : ∀ {a b : Queues}, Ok b → a.Sublist b → Ok a := fun hb hab =>
    ⟨fun q hq => hb.queue q (hab.subset hq), (hab.map Ip6q.key).nodup hb.keys⟩
  rw [frag6Timeout]
  have hfiltered := hsub haged (filter_sublist (p := fun q => decide (q.ttl ≠ 0)))
  cases limit with
  | none => exact hfiltered
  | some => exact hsub hfiltered (take_sublist ..)

/-- Whatever comes, a dirty queue stays as it is, and nothing is delivered for its packet. -/
theorem dirty_stays (h : Ok s) (hq : q ∈ s) (hdirty : q.dirty = true) (o : Luck) (m : Packet) :
    (∃ r ∈ (frag6Input o s m).1, r.key = q.key ∧ r.dirty = true ∧ r.got = q.got) ∧
    (m.key = q.key → (frag6Input o s m).2 = none) := by
  have hstill : ∃ r ∈ note s m, r.key = q.key ∧ r.dirty = true ∧ r.got = q.got := by
    refine ⟨_, mem_map_of_mem hq, ?_⟩
    split <;> exact ⟨rfl, hdirty, rfl⟩
  have hnote := h.note m
  rw [frag6Input]
  split
  · exact ⟨hstill, fun _ => rfl⟩
  split
  · exact ⟨hstill, fun _ => rfl⟩
  split
  · exact ⟨hstill, fun _ => rfl⟩
  obtain ⟨r, hr, hrkey, hrdirty, hrgot⟩ := hstill
  split
  · next x hfind =>
    have hx := mem_of_find?_eq_some hfind
    have hxkey : x.key = m.key := by simpa using find?_some hfind
    by_cases hmk : m.key = q.key
    · -- there is only one queue with this key
      have hxr := inj_on_of_nodup_map hnote.keys hx hr (by rw [hxkey, hmk, hrkey])
      subst hxr
      have hkeep : x.input o.frag o.split false m = .keep x := by
        rw [Ip6q.input, if_pos hrdirty]
      rw [hkeep]
      exact ⟨⟨x, mem_replace_self ⟨x, hx, hxkey⟩, hrkey, hrdirty, hrgot⟩, fun _ => rfl⟩
    · refine ⟨⟨r, ?_, hrkey, hrdirty, hrgot⟩, fun h => absurd h hmk⟩
      have hne : r.key ≠ m.key := fun heq => hmk (heq.symm.trans hrkey)
      cases x.input o.frag o.split false m with
      | keep | free | deliver => exact mem_replace_of_ne hr hne
  · next hfind =>
    have hmk : m.key ≠ q.key := fun heq => by
      have := find?_eq_none.mp hfind r hr
      simp only [decide_eq_true_eq] at this
      exact this (hrkey.trans heq.symm)
    split
    · exact ⟨⟨r, hr, hrkey, hrdirty, hrgot⟩, fun h => absurd h hmk⟩
    refine ⟨⟨r, ?_, hrkey, hrdirty, hrgot⟩, fun h => absurd h hmk⟩
    have hne : r.key ≠ m.key := fun heq => hmk (heq.symm.trans hrkey)
    cases (Ip6q.new m).input o.frag o.split true m with
    | keep | free | deliver => exact mem_replace_of_ne (mem_cons_of_mem _ hr) hne

structure Sound (s : State) : Prop where
  delivered : ∀ r ∈ s.out, Good r.1 r.2
  /-- With an overlap among the packets that count, the queue is dirty. -/
  overlap : ∀ q ∈ s.queues, (∃ a ∈ q.got, ∃ b ∈ q.got, same a b = false ∧ ¬ Apart a b) →
    q.dirty = true
  /-- A dirty queue is only removed by the timer, and delivers nothing. -/
  dirty : ∀ q ∈ s.queues, q.dirty = true → ∀ o m,
    (∃ r ∈ (frag6Input o s.queues m).1, r.key = q.key ∧ r.dirty = true ∧ r.got = q.got) ∧
    (m.key = q.key → (frag6Input o s.queues m).2 = none)

theorem fragments_sound : reassembly.Always Sound := by
  have hinv : reassembly.Always fun s => Ok s.queues ∧ ∀ r ∈ s.out, Good r.1 r.2 := by
    apply System.always_of_step
    · rintro s rfl
      exact ⟨⟨fun _ h => (nomatch h), nodup_nil⟩, fun _ h => (nomatch h)⟩
    rintro s t ⟨hok, hout⟩ hstep
    cases hstep with
    | input o m =>
      obtain ⟨hnext, hnew⟩ := hok.input o m
      refine ⟨hnext, fun r hr => ?_⟩
      rcases mem_append.mp hr with hr | hr
      · exact hnew r (Option.mem_toList.mp hr)
      · exact hout r hr
    | timeout limit => exact ⟨hok.timeout limit, hout⟩
    | drain => exact ⟨⟨fun _ h => (nomatch h), nodup_nil⟩, hout⟩
  intro s hs
  obtain ⟨hok, hout⟩ := hinv s hs
  refine ⟨hout, fun q hq => ?_, fun q hq hdirty => dirty_stays hok hq hdirty⟩
  rintro ⟨a, ha, b, hb, hsame, hapart⟩
  by_contra hclean
  obtain hsame' | hapart' := ((hok.queue q hq).clean (by simpa using hclean)).apart ha hb
  · rw [hsame] at hsame'
    cases hsame'
  · exact hapart hapart'

/-- No two packets that were given to the queue overlap, but for exact repeats. -/
def AllApart (s : State) : Prop :=
  ∀ r ∈ s.out, ∀ a ∈ r.2.seen, ∀ b ∈ r.2.seen, same a b = true ∨ Apart a b

instance (a b : Packet) : Decidable (Apart a b) := inferInstanceAs (Decidable (_ ∨ _))

def zeros (off n : Nat) (more : Bool) (hoff : off < 65536 ∧ off % 8 = 0) (hn : n ≤ 16) :
    Packet where
  key := ⟨1, 1, 2, 0, 0⟩
  ecn := 0
  exts := []
  nxt := 17
  off := off
  more := more
  data := List.replicate n 0
  hasUlp := true
  off_lt := hoff.1
  off_dvd := hoff.2
  plen_lt := by
    simp
    omega

/-- A packet that is discarded for its length may overlap those that are reassembled. -/
theorem discarded_overlaps : ¬ reassembly.Always AllApart := by
  intro h
  have start : reassembly.Reachable initial := .start rfl
  have hrun :=
    ((start.next (.input ⟨true, true, true, true⟩ (zeros 0 16 true (by decide) (by decide)))).next
    (.input ⟨true, true, true, true⟩ (zeros 8 12 true (by decide) (by decide)))).next
    (.input ⟨true, true, true, true⟩ (zeros 16 8 false (by decide) (by decide)))
  have hapart := h _ hrun
  revert hapart
  rw [AllApart]
  decide

end XnuXzs.Frag6
