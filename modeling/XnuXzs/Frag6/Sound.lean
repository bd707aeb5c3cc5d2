import XnuXzs.Frag6.Model

/-!
# What is queued and what is delivered

A queue that is not dirty has, for all packets that were not discarded on their own, the
first one with each offset and length, and those do not overlap.
-/

namespace XnuXzs.Frag6

open Lib List

variable {q r : Ip6q} {m a b : Packet} {before after : List Packet}

/-- An exact repeat, as far as the code looks. -/
def same (f g : Packet) : Bool := decide (g.off = f.off ∧ g.len = f.len)

def Apart (a b : Packet) : Prop := a.off + a.len ≤ b.off ∨ b.off + b.len ≤ a.off

/-- In order, disjoint, and with different offsets. -/
def InOrder (frags : List Packet) : Prop :=
  frags.Pairwise fun a b => a.off < b.off ∧ a.off + a.len ≤ b.off

theorem same_iff {f g : Packet} : same f g = true ↔ g.off = f.off ∧ g.len = f.len := by
  simp [same]

theorem InOrder.apart {frags : List Packet} (h : InOrder frags) (ha : a ∈ frags) (hb : b ∈ frags) :
    a = b ∨ Apart a b := by
  induction frags with
  | nil => cases ha
  | cons x xs ih =>
    obtain ⟨hx, hxs⟩ := pairwise_cons.mp h
    rcases mem_cons.mp ha with rfl | haxs
    · rcases mem_cons.mp hb with rfl | hbxs
      · exact .inl rfl
      · exact .inr (.inl (hx b hbxs).2)
    · rcases mem_cons.mp hb with rfl | hbxs
      · exact .inr (.inr (hx a haxs).2)
      · exact ih hxs haxs hbxs

theorem placeNext_room (h : placeNext after m = .room) (hord : InOrder after)
    (hlt : ∀ b ∈ after, m.off < b.off) : ∀ b ∈ after, m.off < b.off ∧ m.off + m.len ≤ b.off := by
  cases after with
  | nil => exact fun _ hb => nomatch hb
  | cons x xs =>
    rw [placeNext] at h
    split at h
    · cases h
    obtain ⟨hx, -⟩ := pairwise_cons.mp hord
    intro b hb
    refine ⟨hlt b hb, ?_⟩
    rcases mem_cons.mp hb with rfl | hb
    · omega
    · have := hx b hb
      omega

theorem place_room (h : place before after m = .room) (hord : InOrder (before ++ after))
    (hle : ∀ a ∈ before, a.off ≤ m.off) (hlt : ∀ b ∈ after, m.off < b.off) :
    InOrder (before ++ m :: after) ∧ ∀ f ∈ before ++ after, f.off ≠ m.off := by
  obtain ⟨hbefore, hafter, hacross⟩ := pairwise_append.mp hord
  have hparts : (∀ a ∈ before, a.off < m.off ∧ a.off + a.len ≤ m.off) ∧
      placeNext after m = .room := by
    cases hlast : before.getLast? with
    | none =>
      rw [place, hlast] at h
      refine ⟨?_, h⟩
      rw [getLast?_eq_none_iff.mp hlast]
      exact fun _ ha => nomatch ha
    | some up =>
      rw [place, hlast] at h
      simp only at h
      split at h
      · split at h <;> cases h
      next hne =>
      split at h
      · cases h
      refine ⟨?_, h⟩
      obtain ⟨zs, rfl⟩ := getLast?_eq_some_iff.mp hlast
      intro a ha
      rcases mem_append.mp ha with ha | ha
      · have := (pairwise_append.mp hbefore).2.2 a ha up (mem_singleton_self up)
        omega
      · rw [mem_singleton.mp ha]
        omega
  obtain ⟨hbm, hnext⟩ := hparts
  have hma := placeNext_room hnext hafter hlt
  refine ⟨pairwise_append.mpr ⟨hbefore, pairwise_cons.mpr ⟨hma, hafter⟩, ?_⟩, ?_⟩
  · intro a ha b hb
    rcases mem_cons.mp hb with rfl | hb
    · exact hbm a ha
    · exact hacross a ha b hb
  intro f hf
  rcases mem_append.mp hf with hf | hf
  · have := hbm f hf
    omega
  · have := hma f hf
    omega

theorem place_duplicate (h : place before after m = .duplicate) :
    ∃ f ∈ before, same f m = true := by
  have hnext : placeNext after m ≠ .duplicate := by
    cases after with
    | nil => exact nofun
    | cons x xs =>
      rw [placeNext]
      split <;> exact nofun
  rw [place] at h
  split at h
  · exact absurd h hnext
  next up hlast =>
  refine ⟨up, mem_of_getLast? hlast, ?_⟩
  split at h
  · next hoff =>
    split at h
    · cases h
    · next hlen =>
      rw [same_iff]
      exact ⟨hoff.symm, by simpa using (not_not.mp hlen).symm⟩
  · split at h
    · cases h
    · exact absurd h hnext

structure Clean (q : Ip6q) : Prop where
  inOrder : InOrder q.frags
  /-- Of exact repeats the first one is kept. -/
  kept : ∀ f ∈ q.frags, q.got.find? (same f) = some f
  cover : ∀ g ∈ q.got, ∃ f ∈ q.frags, same f g = true
  first : ∀ f ∈ q.frags, f.off = 0 → q.unfrglen = some f.exts.length ∧ q.nxt = f.nxt
  told : q.unfrglen ≠ none → ∃ f ∈ q.frags, f.off = 0
  short : ∀ f ∈ q.frags, q.unfrglen.getD 0 + f.off + f.len ≤ 65535

structure QueueOk (q : Ip6q) : Prop where
  clean : q.dirty = false → Clean q
  seen : ∀ m ∈ q.got, m ∈ q.seen
  key : ∀ m ∈ q.seen, m.key = q.key

theorem Clean.apart (h : Clean q) (ha : a ∈ q.got) (hb : b ∈ q.got) :
    same a b = true ∨ Apart a b := by
  obtain ⟨f, hf, hfa⟩ := h.cover a ha
  obtain ⟨g, hg, hgb⟩ := h.cover b hb
  rw [same_iff] at hfa hgb
  obtain rfl | hapart := h.inOrder.apart hf hg
  · refine .inl (same_iff.mpr ?_)
    omega
  · refine .inr ?_
    rw [Apart] at hapart ⊢
    omega

structure Good (w : Whole) (q : Ip6q) : Prop where
  key : ∀ m ∈ q.seen, m.key = q.key
  seen : ∀ m ∈ q.got, m ∈ q.seen
  apart : ∀ a ∈ q.got, ∀ b ∈ q.got, same a b = true ∨ Apart a b
  plen : w.plen = w.exts.length + w.data.length
  /-- The data of the fragments that were kept, from the first to one without the flag. -/
  frags : ∃ kept : List Packet, (∀ f ∈ kept, q.got.find? (same f) = some f) ∧
    contiguous Packet.off Packet.len 0 kept = some w.data.length ∧
      w.data = kept.flatMap Packet.data ∧
    (∃ f ∈ kept.head?, f.off = 0 ∧ w.exts = f.exts ∧ w.nxt = f.nxt) ∧
    ∃ f ∈ kept.getLast?, f.more = false

def Outcome.Ok (k : Key) : Outcome → Prop
  | .keep q => QueueOk q ∧ q.key = k
  | .free => True
  | .deliver w q => Good w q ∧ q.key = k

theorem QueueOk.check (h : QueueOk q) (hclean : q.dirty = false) (split : Bool) :
    (q.check split).Ok q.key := by
  have hc := h.clean hclean
  rw [Ip6q.check]
  split
  · next next first last hnext hfirst hlast =>
    split
    · exact ⟨h, rfl⟩
    next hmore =>
    split
    · trivial
    have hdata : ∀ f ∈ q.frags, f.data.length = f.len := fun _ _ => rfl
    have hlength := contiguous_length hnext hdata
    have hfirstMem := mem_of_head? hfirst
    have hzero : first.off = 0 := by
      obtain ⟨xs, hxs⟩ := head?_eq_some_iff.mp hfirst
      rw [hxs] at hnext
      exact (contiguous_cons hnext).1
    obtain ⟨hunfr, hnxt⟩ := hc.first first hfirstMem hzero
    have hshort := hc.short last (mem_of_getLast? hlast)
    have hend := contiguous_getLast hnext hlast
    rw [hunfr, Option.getD_some] at hshort
    refine ⟨⟨h.key, h.seen, fun a ha b hb => hc.apart ha hb, ?_, q.frags, hc.kept, ?_, rfl,
      ⟨first, hfirst, hzero, rfl, hnxt⟩, last, hlast, by simpa using hmore⟩, rfl⟩
    · simp only
      omega
    · rw [hnext]
      simp only [Option.some.injEq]
      omega
  · exact ⟨h, rfl⟩

theorem Clean.recheck (h : Clean q) : Clean (q.recheck ((q.localUnfrglen m).getD 0) m) ∧
    (tooLong ((q.localUnfrglen m).getD 0) m = false →
      ∀ f ∈ (q.recheck ((q.localUnfrglen m).getD 0) m).frags,
        (q.localUnfrglen m).getD 0 + f.off + f.len ≤ 65535) := by
  rw [Ip6q.recheck]
  split
  · next hoff =>
    set u := (q.localUnfrglen m).getD 0 with hu
    have hfilter : ∀ {f : Packet}, f ∈ q.frags.filter (fun f => !tooLong u f) ↔
        f ∈ q.frags ∧ u + f.off + f.len ≤ 65535 := fun {f} => by
      simp [mem_filter, tooLong]
    -- a first fragment that is kept already has told the length
    have htold : q.unfrglen ≠ none → ∀ f ∈ q.frags, u + f.off + f.len ≤ 65535 := by
      intro hne f hf
      have : q.localUnfrglen m = q.unfrglen := by
        rw [Ip6q.localUnfrglen, if_neg fun h => hne h.2]
      rw [hu, this]
      exact h.short f hf
    refine ⟨⟨h.inOrder.sublist filter_sublist, fun f hf => ?_, fun g hg => ?_, fun f hf => ?_,
      fun hne => ?_, fun f hf => ?_⟩, fun _ f hf => (hfilter.mp hf).2⟩
    · obtain ⟨hmem, hshort⟩ := hfilter.mp hf
      rw [find?_filter, ← h.kept f hmem]
      congr 1
      funext g
      by_cases hsame : same f g = true
      · have := same_iff.mp hsame
        have hg : tooLong u g = false := by
          simp only [tooLong, decide_eq_false_iff_not]
          omega
        simp [hsame, hg]
      · simp [hsame]
    · simp only [mem_filter, tooLong, Bool.not_eq_eq_eq_not, Bool.not_true,
        decide_eq_false_iff_not] at hg
      obtain ⟨f, hf, hsame⟩ := h.cover g hg.1
      refine ⟨f, hfilter.mpr ⟨hf, ?_⟩, hsame⟩
      have := same_iff.mp hsame
      omega
    · exact h.first f (hfilter.mp hf).1
    · obtain ⟨f, hf, hzero⟩ := h.told hne
      exact ⟨f, hfilter.mpr ⟨hf, htold hne f hf⟩, hzero⟩
    · exact h.short f (hfilter.mp hf).1
  · next hoff =>
    refine ⟨h, fun _ f hf => ?_⟩
    have : q.localUnfrglen m = q.unfrglen := by
      rw [Ip6q.localUnfrglen, if_neg fun h => hoff h.1]
    rw [this]
    exact h.short f hf

theorem Clean.keepFrag {r : Ip6q} (h : Clean r) (hunfr : r.unfrglen = q.unfrglen)
    (hnxt : r.nxt = q.nxt) (hsplit : r.frags = before ++ after)
    (hord : InOrder (before ++ m :: after)) (hne : ∀ f ∈ before ++ after, f.off ≠ m.off)
    (hshort : ∀ f ∈ r.frags, (q.localUnfrglen m).getD 0 + f.off + f.len ≤ 65535)
    (hm : tooLong ((q.localUnfrglen m).getD 0) m = false) :
    Clean (r.keepFrag (q.localUnfrglen m) (q.localNxt m) before after m) := by
  have hmem : ∀ {f : Packet}, f ∈ before ++ m :: after ↔ f ∈ r.frags ∨ f = m := fun {f} => by
    rw [hsplit]
    simp only [mem_append, mem_cons]
    tauto
  have hnew : ∀ g ∈ r.got, same m g = false := by
    intro g hg
    obtain ⟨f, hf, hsame⟩ := h.cover g hg
    rw [hsplit] at hf
    have hoff := hne f hf
    have := same_iff.mp hsame
    by_contra hyes
    have := same_iff.mp (Bool.not_eq_false _ ▸ hyes)
    omega
  -- no first fragment was there if this one is
  have hnone : m.off = 0 → q.unfrglen = none := by
    intro hoff
    by_contra hsome
    obtain ⟨f, hf, hzero⟩ := h.told (hunfr ▸ hsome)
    rw [hsplit] at hf
    exact hne f hf (hzero.trans hoff.symm)
  refine ⟨hord, fun f hf => ?_, fun g hg => ?_, fun f hf hzero => ?_,
    fun htold => ?_, fun f hf => ?_⟩
  · simp only [Ip6q.keepFrag, find?_append]
    rcases hmem.mp hf with hf | rfl
    · rw [h.kept f hf]
      rfl
    · have hfind : r.got.find? (same f) = none := find?_eq_none.mpr fun g hg => by simp [hnew g hg]
      rw [hfind]
      simp [same]
  · rcases mem_append.mp hg with hg | hg
    · obtain ⟨f, hf, hsame⟩ := h.cover g hg
      exact ⟨f, hmem.mpr (.inl hf), hsame⟩
    · rw [mem_singleton.mp hg]
      exact ⟨m, hmem.mpr (.inr rfl), by simp [same]⟩
  · simp only [Ip6q.keepFrag, Ip6q.localUnfrglen, Ip6q.localNxt]
    rcases hmem.mp hf with hf | rfl
    · obtain ⟨hu, hn⟩ := h.first f hf hzero
      rw [hunfr] at hu
      rw [hnxt] at hn
      have hout : ¬ (m.off = 0 ∧ q.unfrglen = none) := fun hx => by simp [hu] at hx
      rw [if_neg hout, if_neg hout]
      exact ⟨hu, hn⟩
    · rw [if_pos ⟨hzero, hnone hzero⟩, if_pos ⟨hzero, hnone hzero⟩]
      exact ⟨rfl, rfl⟩
  · by_cases hzero : m.off = 0
    · exact ⟨m, hmem.mpr (.inr rfl), hzero⟩
    have hq : r.unfrglen ≠ none := by
      simp only [Ip6q.keepFrag, Ip6q.localUnfrglen, hzero, false_and, if_false] at htold
      rw [hunfr]
      exact htold
    obtain ⟨f, hf, hf0⟩ := h.told hq
    exact ⟨f, hmem.mpr (.inl hf), hf0⟩
  · rcases hmem.mp hf with hf | rfl
    · exact hshort f hf
    · simp only [tooLong, decide_eq_false_iff_not] at hm
      simp only [Ip6q.keepFrag]
      omega

theorem markEcn_eq {q r : Ip6q} {e : BitVec 2} (h : q.markEcn e = some r) :
    ∃ e', r = { q with ecn := e' } := by
  rw [Ip6q.markEcn] at h
  split at h
  · cases h
  split at h
  · cases h
  split at h
  · cases h
    exact ⟨3, rfl⟩
  · cases h
    exact ⟨q.ecn, rfl⟩

theorem recheck_fields (q : Ip6q) (u : Nat) (m : Packet) :
    (q.recheck u m).unfrglen = q.unfrglen ∧ (q.recheck u m).nxt = q.nxt ∧
    (q.recheck u m).dirty = q.dirty ∧ (q.recheck u m).key = q.key ∧ (q.recheck u m).seen = q.seen ∧
    ∀ g ∈ (q.recheck u m).got, g ∈ q.got := by
  rw [Ip6q.recheck]
  split
  · exact ⟨rfl, rfl, rfl, rfl, rfl, fun g hg => (mem_filter.mp hg).1⟩
  · exact ⟨rfl, rfl, rfl, rfl, rfl, fun _ => id⟩

theorem QueueOk.recheck (h : QueueOk q) (m : Packet) :
    QueueOk (q.recheck ((q.localUnfrglen m).getD 0) m) := by
  obtain ⟨-, -, hdirty, hkey, hseen, hgot⟩ := recheck_fields q ((q.localUnfrglen m).getD 0) m
  refine ⟨fun hclean => ?_, fun g hg => ?_, ?_⟩
  · rw [hdirty] at hclean
    exact (h.clean hclean).recheck.1
  · rw [hseen]
    exact h.seen g (hgot g hg)
  · rw [hseen, hkey]
    exact h.key

theorem QueueOk.add (h : QueueOk r) (hclean : r.dirty = false) (hunfr : r.unfrglen = q.unfrglen)
    (hnxt : r.nxt = q.nxt) (hseen : m ∈ r.seen)
    (hshort : ∀ f ∈ r.frags, (q.localUnfrglen m).getD 0 + f.off + f.len ≤ 65535)
    (hm : tooLong ((q.localUnfrglen m).getD 0) m = false) (split : Bool) :
    (r.add split (q.localUnfrglen m) (q.localNxt m) m).Ok r.key := by
  have hc := h.clean hclean
  have hgot : ∀ g ∈ r.got ++ [m], g ∈ r.seen := by
    intro g hg
    rcases mem_append.mp hg with hg | hg
    · exact h.seen g hg
    · rw [mem_singleton.mp hg]
      exact hseen
  have hsplit : r.frags = _ ++ _ := (takeWhile_append_dropWhile
    (p := fun f => decide (f.off ≤ m.off))).symm
  rw [Ip6q.add]
  split
  · next hplace =>
    obtain ⟨f, hf, hsame⟩ := place_duplicate hplace
    have hmem : f ∈ r.frags := (takeWhile_sublist _).subset hf
    refine ⟨⟨fun _ => { hc with kept := fun g hg => ?_, cover := fun g hg => ?_ },
      hgot, h.key⟩, rfl⟩
    · simp only [find?_append, hc.kept g hg]
      rfl
    rcases mem_append.mp hg with hg | hg
    · exact hc.cover g hg
    · rw [mem_singleton.mp hg]
      exact ⟨f, hmem, hsame⟩
  · exact ⟨⟨nofun, hgot, h.key⟩, rfl⟩
  · next hplace =>
    have hord := hc.inOrder
    rw [hsplit] at hord
    obtain ⟨hnew, hne⟩ := place_room hplace hord (fun a ha => mem_takeWhile_le ha) fun b hb =>
      Successive.lt_of_mem_dropWhile (hc.inOrder.imp fun hab => hab.2) hb
    have hkeep := hc.keepFrag hunfr hnxt hsplit hnew hne hshort hm
    exact QueueOk.check ⟨fun _ => hkeep, hgot, h.key⟩ hclean split

theorem QueueOk.input (h : QueueOk q) (hseen : m ∈ q.seen) (alloc split first : Bool)
    (hfirst : first = true → q.frags = []) : (q.input alloc split first m).Ok q.key := by
  obtain ⟨hunfr, hnxt, hdirty, hkey, hseenEq, hgot⟩ :=
    recheck_fields q ((q.localUnfrglen m).getD 0) m
  have hre := h.recheck m
  rw [Ip6q.input]
  split
  · exact ⟨h, rfl⟩
  next hclean =>
  have hclean : q.dirty = false := by simpa using hclean
  split
  · exact ⟨h, rfl⟩
  next hlong =>
  have hm : tooLong ((q.localUnfrglen m).getD 0) m = false := by simpa using hlong
  have hshort := (h.clean hclean).recheck.2 hm
  split
  · exact ⟨h, rfl⟩
  split
  · exact ⟨hre, hkey⟩
  split
  · next hone =>
    have hempty : (q.recheck ((q.localUnfrglen m).getD 0) m).frags = [] := by
      rw [Ip6q.recheck]
      split
      · simp [hfirst hone]
      · exact hfirst hone
    have hkeep := @Clean.keepFrag q m [] [] _ (h.clean hclean).recheck.1 hunfr hnxt hempty
      (pairwise_singleton ..) (fun f hf => nomatch hf) hshort hm
    refine hkey ▸ QueueOk.check ⟨fun _ => hkeep, fun g hg => ?_, ?_⟩ (hdirty.trans hclean) split
    · rcases mem_append.mp hg with hg | hg
      · exact hre.seen g hg
      · rw [mem_singleton.mp hg]
        exact hseenEq ▸ hseen
    · exact hre.key
  · split
    · exact ⟨hre, hkey⟩
    next r hmark =>
    obtain ⟨e, rfl⟩ := markEcn_eq hmark
    have hok : QueueOk { q.recheck ((q.localUnfrglen m).getD 0) m with ecn := e } :=
      ⟨fun hx => { hre.clean hx with }, hre.seen, hre.key⟩
    exact hkey ▸ hok.add (hdirty.trans hclean) hunfr hnxt (hseenEq ▸ hseen) hshort hm split

end XnuXzs.Frag6
