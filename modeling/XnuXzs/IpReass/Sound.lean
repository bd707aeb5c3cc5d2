import XnuXzs.IpReass.Queue

/-!
# What is queued and what is returned
-/

namespace XnuXzs.IpReass

open Lib Function List

variable {fp fp' : Ipq} {l : Limits} {m : Frag} {d : Datagram} {fps : List Ipq} {frags : List Frag}
  {tos : BitVec 8}

structure QueueOk (fp : Ipq) : Prop where
  nfrags : fp.nfrags = fp.frags.length
  key : ∀ m ∈ fp.got, m.key = fp.key
  frags : ∀ f ∈ fp.frags, FragOk fp.got f
  guarded : Guarded False fp.frags
  ordered : (∀ m ∈ fp.got, m.Fits) → Successive Frag.base Frag.len fp.frags

/-- A returned datagram has its bytes from the packets of its queue. -/
structure Good (d : Datagram) (fp : Ipq) : Prop where
  key : ∀ m ∈ fp.got, m.key = fp.key
  src : d.src = fp.key.src
  dst : d.dst = fp.key.dst
  size : d.data.length ≤ 65535 - 4 * d.hl
  len : d.len = 4 * d.hl + d.data.length
  byte : ∀ k < d.data.length, ∃ m ∈ fp.got, m.start ≤ k ∧ d.data[k]? = m.data[k - m.start]?
  last : ∃ m ∈ fp.got, m.more = false ∧ m.start + m.data.length = d.data.length ∧
    (m.data ≠ [] → d.data.getLast? = m.data.getLast?)

theorem ecn_cases {frags' : List Frag} (h : ecn frags tos = some frags') :
    frags' = frags ∨ ∃ f fs tos', frags = f :: fs ∧ frags' = { f with tos := tos' } :: fs := by
  cases frags with
  | nil =>
    cases h
    exact .inl rfl
  | cons f fs =>
    simp only [ecn] at h
    split at h
    · cases h
    split at h
    · cases h
    split at h
    · cases h
      exact .inr ⟨f, fs, _, rfl, rfl⟩
    · cases h
      exact .inl rfl

theorem QueueOk.ecn (h : QueueOk fp) (hecn : ecn fp.frags tos = some frags) :
    QueueOk { fp with frags := frags } := by
  obtain rfl | ⟨f, fs, tos', heq, rfl⟩ := ecn_cases hecn
  · exact h
  obtain ⟨hnfrags, hkey, hfrags, hguarded, hordered⟩ := h
  rw [heq] at hnfrags hfrags hguarded hordered
  refine ⟨hnfrags, hkey, ?_, hguarded, fun hfit => ?_⟩
  · intro g hg
    rcases mem_cons.mp hg with rfl | hg
    · exact { hfrags f mem_cons_self with }
    · exact hfrags g (mem_cons_of_mem f hg)
  · obtain ⟨hf, hfs⟩ := pairwise_cons.mp (hordered hfit)
    exact pairwise_cons.mpr ⟨hf, hfs⟩

theorem QueueOk.insert {m' : Frag} (h : QueueOk fp) (hm : FragOk [m.src] m) (hoff : m.off = m.base)
    (hkey : m.src.key = fp.key)
    (htrim : trimFront (fp.frags.takeWhile fun f => decide (f.off ≤ m.off)).getLast? m = some m') :
    QueueOk { fp with
      nfrags := fp.nfrags + 1 -
        (trimNext (m'.off + m'.len) (fp.frags.dropWhile fun f => decide (f.off ≤ m.off))).2
      frags := (fp.frags.takeWhile fun f => decide (f.off ≤ m.off)) ++
        m' :: (trimNext (m'.off + m'.len) (fp.frags.dropWhile fun f => decide (f.off ≤ m.off))).1
      got := m.src :: fp.got } := by
  set before := fp.frags.takeWhile fun f => decide (f.off ≤ m.off) with hbefore
  set after := fp.frags.dropWhile fun f => decide (f.off ≤ m.off) with hafter
  have hsplit : fp.frags = before ++ after := takeWhile_append_dropWhile.symm
  obtain ⟨hm', hsrc, hle, hp, hfrom⟩ := trimFront_ok hm hoff htrim
  have hfrags : ∀ f ∈ before ++ after, FragOk (m.src :: fp.got) f := fun f hf =>
    (h.frags f (hsplit ▸ hf)).mono fun _ => mem_cons_of_mem _
  have hbeforeOk : ∀ f ∈ before, FragOk (m.src :: fp.got) f := fun f hf =>
    hfrags f (mem_append_left _ hf)
  have hafterOk : ∀ f ∈ after, FragOk (m.src :: fp.got) f := fun f hf =>
    hfrags f (mem_append_right _ hf)
  have hmOk : FragOk (m.src :: fp.got) m' := hm'.mono fun x hx => by
    rw [mem_singleton.mp hx]
    exact mem_cons_self
  have hnewOk : ∀ f ∈ before ++ m' :: (trimNext (m'.off + m'.len) after).1,
      FragOk (m.src :: fp.got) f := by
    intro f hf
    rcases mem_append.mp hf with hf | hf
    · exact hbeforeOk f hf
    · rcases mem_cons.mp hf with rfl | hf
      · exact hmOk
      · exact trimNext_ok hafterOk f hf
  refine ⟨?_, ?_, ?_, ?_, fun hfit => ?_⟩
  · have hlength := trimNext_length (m'.off + m'.len) after
    have hn := h.nfrags
    rw [hsplit, length_append] at hn
    simp only [length_append, length_cons]
    omega
  · intro x hx
    rcases mem_cons.mp hx with rfl | hx
    · exact hkey
    · exact h.key x hx
  · exact hnewOk
  · have hguarded := h.guarded
    rw [hsplit, guarded_append] at hguarded
    refine guarded_append.mpr ⟨hguarded.1, fun hge => ?_, ?_⟩
    · -- it was trimmed by a fragment that reaches as far
      obtain heq | ⟨q, hq, heq⟩ := hfrom
      · have := m.src.start_lt
        have hstop := hm.off
        omega
      · exact .inr ⟨q, mem_of_getLast? hq, by omega⟩
    · exact trimNext_guarded hafterOk hguarded.2
  · -- without wrapped offsets the headers tell the true ones
    have hoffEq : ∀ {f : Frag}, FragOk (m.src :: fp.got) f → f.off = f.base := fun hf =>
      hf.off_eq (hfit _ hf.mem)
    have hstop : ∀ {f : Frag}, FragOk (m.src :: fp.got) f → f.off + f.len ≤ 65536 := fun hf => by
      rw [hoffEq hf, hf.stop_eq]
      exact hfit _ hf.mem
    have hold : Successive Frag.off Frag.len fp.frags := by
      refine (h.ordered fun x hx => hfit x (mem_cons_of_mem _ hx)).imp_of_mem ?_
      intro a b ha hb hab
      rw [hsplit] at ha hb
      rw [hoffEq (hfrags a ha), hoffEq (hfrags b hb)]
      exact hab
    have hparts := hold
    rw [hsplit] at hparts
    obtain ⟨hordBefore, hordAfter, -⟩ := pairwise_append.mp hparts
    obtain ⟨hordNext, hnext⟩ := @trimNext_ordered after (m'.off + m'.len)
      (fun q hq => hstop (hafterOk q hq)) hordAfter
    have hnew : Successive Frag.off Frag.len (before ++ m' ::
        (trimNext (m'.off + m'.len) after).1) := by
      refine Successive.insert hordBefore hordNext (fun a ha => ?_) hnext
      rw [hoffEq hmOk]
      cases hlast : before.getLast? with
      | none =>
        rw [getLast?_eq_none_iff.mp hlast] at ha
        cases ha
      | some p =>
        have hap := Successive.le_getLast hordBefore hlast ha
        have hpm := hp p hlast
        omega
    apply hnew.imp_of_mem
    intro a b ha hb hab
    rw [← hoffEq (hnewOk a ha), ← hoffEq (hnewOk b hb)]
    exact hab

def Outcome.Ok (k : Key) : Outcome → Prop
  | .keep fp => QueueOk fp ∧ fp.key = k
  | .free => True
  | .deliver d fp => Good d fp ∧ fp.key = k

theorem QueueOk.wait (h : QueueOk fp) (l : Limits) : (fp.wait l).Ok fp.key := by
  rw [Ipq.wait]
  split
  · trivial
  · exact ⟨h, rfl⟩

/-- A complete datagram of a sane size has no wrapped offsets. -/
theorem QueueOk.good (h : QueueOk fp) {next : Nat} {first last : Frag}
    (hnext : contiguous Frag.off Frag.len 0 fp.frags = some next)
    (hlast : fp.frags.getLast? = some last) (hmore : last.more = false)
    (hsize : next + 4 * first.hl ≤ 65535) :
    Good ⟨fp.key.src, fp.key.dst, (4 * first.hl + next) % 65536, first.hl,
      fp.frags.flatMap Frag.data⟩ fp := by
  have hdata : ∀ f ∈ fp.frags, f.data.length = f.len := fun f hf => (h.frags f hf).data_length
  have hlength := contiguous_length hnext hdata
  have hbase : ∀ f ∈ fp.frags, f.off = f.base := by
    intro f hf
    rw [(h.frags f hf).off]
    refine Nat.mod_eq_of_lt (h.guarded.base_lt (fun q hq => ?_) f hf)
    have := (contiguous_mem hnext hq).2
    omega
  have hlastMem := mem_of_getLast? hlast
  have hlastOk := h.frags last hlastMem
  have hend := contiguous_getLast hnext hlast
  refine ⟨h.key, rfl, rfl, ?_, ?_, fun k hk => ?_, last.src, hlastOk.mem, ?_, ?_, fun hne => ?_⟩
  · simp only
    omega
  · simp only
    omega
  · obtain ⟨f, hf, hle, hbyte⟩ := contiguous_byte hnext hdata (k := k) (by simp only at hk; omega)
    have hok := h.frags f hf
    rw [hbase f hf] at hle hbyte
    refine ⟨f.src, hok.mem, ?_, ?_⟩
    · have := hok.base_eq
      omega
    · simp only [hbyte, zero_add]
      exact hok.byte k (by omega)
  · exact hlastOk.more.symm.trans hmore
  · have := hlastOk.stop_eq
    have hoff := hbase last hlastMem
    simp only
    omega
  · have hpos : 0 < last.data.length := by
      rw [hlastOk.data_length]
      exact hlastOk.pos hne
    obtain ⟨pre, hpre⟩ := getLast?_eq_some_iff.mp hlast
    have hlt : last.src.data.length - last.len < last.src.data.length := by
      have := hlastOk.pos hne
      have := hlastOk.len_le
      omega
    simp only [hpre, flatMap_append, flatMap_cons, flatMap_nil, append_nil]
    rw [getLast?_append_of_ne_nil _ (length_pos_iff.mp hpos), hlastOk.data,
      getLast?_drop, if_neg (by omega)]

theorem QueueOk.check (h : QueueOk fp) (l : Limits) : (fp.check l).Ok fp.key := by
  rw [Ipq.check]
  split
  · next next first last hnext _ hlast =>
    split
    · exact h.wait l
    next hmore =>
    split
    · trivial
    · next hsize =>
      exact ⟨h.good hnext hlast (by simpa using hmore) (by omega), rfl⟩
  · exact h.wait l

theorem QueueOk.add (h : QueueOk fp) (hm : FragOk [m.src] m) (hoff : m.off = m.base)
    (hkey : m.src.key = fp.key) (l : Limits) : (fp.add l m).Ok fp.key := by
  rw [Ipq.add]
  split
  · exact ⟨h, rfl⟩
  next frags hecn =>
  have hmarked := h.ecn hecn
  simp only
  split
  · exact ⟨hmarked, rfl⟩
  · next m' htrim => exact (hmarked.insert hm hoff hkey htrim).check l

theorem QueueOk.new (hm : FragOk [m.src] m) (hoff : m.off = m.base) : QueueOk (.new m) := by
  refine ⟨rfl, fun x hx => ?_, fun f hf => ?_, ⟨fun hge => ?_, trivial⟩, fun _ =>
    pairwise_singleton ..⟩
  · rw [mem_singleton.mp hx]
    rfl
  · rw [mem_singleton.mp hf]
    exact hm
  · have := m.src.start_lt
    have hmod := hm.off
    omega

def Table.Ok (s : Table) : Prop := ∀ b, ∀ fp ∈ s.ipq b, QueueOk fp

theorem mem_replace {k : Key} {new : Option Ipq} (h : fp ∈ replace k new fps) :
    fp ∈ new ∨ fp ∈ fps := by
  induction fps with
  | nil => cases h
  | cons q qs ih =>
    rw [replace] at h
    split at h
    · rcases mem_append.mp h with h | h
      · exact .inl (Option.mem_toList.mp h)
      · exact .inr (mem_cons_of_mem q h)
    · rcases mem_cons.mp h with rfl | h
      · exact .inr mem_cons_self
      · exact (ih h).imp_right (mem_cons_of_mem q)

variable {s : Table}

theorem Table.Ok.update (h : s.Ok) {b : Fin 64} {k : Nat} (hfps : ∀ fp ∈ fps, QueueOk fp) :
    Table.Ok ⟨update s.ipq b fps, k⟩ := by
  intro c fp hfp
  simp only at hfp
  by_cases hc : c = b
  · subst hc
    rw [update_self] at hfp
    exact hfps fp hfp
  · rw [update_of_ne hc] at hfp
    exact h c fp hfp

theorem Table.Ok.freeLast (h : s.Ok) (b : Fin 64) : (s.freeLast b).Ok :=
  h.update fun fp hfp => h b fp (mem_of_mem_dropLast hfp)

theorem Table.Ok.trim (h : s.Ok) (l : Limits) (b : Fin 64) : (s.trim l b).Ok := by
  rw [Table.trim]
  split
  · split
    · cases (List.finRange 64).find? fun i => decide (s.ipq i ≠ []) with
      | none => exact h
      | some i => exact h.freeLast i
    · exact h.freeLast b
  · exact h

theorem Table.Ok.reass (h : s.Ok) (l : Limits) (alloc : Bool) (p : Packet) :
    (ipReass l alloc s p).1.Ok ∧ ∀ r ∈ (ipReass l alloc s p).2, Good r.1 r.2 ∧ r.2.key = p.key := by
  rw [ipReass]
  split
  · exact ⟨h, fun r hr => by cases hr⟩
  simp only
  split
  · have htrim := h.trim l (ipreassHash p.key.src p.key.id)
    split
    · exact ⟨htrim, fun r hr => by cases hr⟩
    next f hf =>
    obtain ⟨hok, hsrc, hoff⟩ := toFrag_ok hf
    split
    · refine ⟨htrim.update fun fp hfp => ?_, fun r hr => by cases hr⟩
      rcases mem_cons.mp hfp with rfl | hfp
      · exact .new (hsrc ▸ hok) hoff
      · exact htrim _ fp hfp
    · exact ⟨htrim, fun r hr => by cases hr⟩
  · next fp hfind =>
    have hfp := h _ fp (mem_of_find?_eq_some hfind)
    have hkey : fp.key = p.key := by simpa using find?_some hfind
    split
    · exact ⟨h, fun r hr => by cases hr⟩
    next f hf =>
    obtain ⟨hok, hsrc, hoff⟩ := toFrag_ok hf
    have hout := hfp.add (hsrc ▸ hok) hoff (by rw [hsrc, hkey]) l
    have hreplace : ∀ new : Option Ipq, (∀ q ∈ new, QueueOk q) →
        ∀ q ∈ replace p.key new (s.ipq (ipreassHash p.key.src p.key.id)), QueueOk q :=
      fun new hnew q hq => (mem_replace hq).elim (hnew q) (h _ q)
    split
    · next fp' heq =>
      rw [heq] at hout
      refine ⟨h.update (hreplace _ fun q hq => ?_), fun r hr => by cases hr⟩
      cases hq
      exact hout.1
    · refine ⟨h.update (hreplace none fun q hq => ?_), fun r hr => by cases hr⟩
      cases hq
    · next d fp' heq =>
      rw [heq] at hout
      refine ⟨h.update (hreplace none fun q hq => ?_), fun r hr => ?_⟩
      · cases hq
      · cases hr
        exact ⟨hout.1, hout.2.trans hkey⟩

theorem age_ok (h : ∀ fp ∈ fps, QueueOk fp) : ∀ fp ∈ age fps, QueueOk fp := by
  induction fps with
  | nil => exact fun _ hfp => nomatch hfp
  | cons q qs ih =>
    have hqs := ih fun fp hfp => h fp (mem_cons_of_mem q hfp)
    rw [age]
    split
    · exact hqs
    intro fp hfp
    rcases mem_cons.mp hfp with rfl | hfp
    · exact { h q mem_cons_self with }
    · exact hqs fp hfp

theorem Table.Ok.shrink (h : s.Ok) (l : Limits) (b : Fin 64) : (s.shrink l b).Ok :=
  h.update fun fp hfp => h b fp (mem_of_mem_drop hfp)

theorem Table.Ok.timeout (h : s.Ok) (l : Limits) : (fragTimeout l s).Ok := by
  have hshrink : ∀ (bs : List (Fin 64)) (s : Table), s.Ok → (bs.foldl (Table.shrink l) s).Ok := by
    intro bs
    induction bs with
    | nil => exact fun _ h => h
    | cons b bs ih => exact fun s h => ih _ (h.shrink l b)
  have haged : ∀ k, Table.Ok ⟨fun b => age (s.ipq b), k⟩ := fun _ b => age_ok (h b)
  rw [fragTimeout]
  split
  · exact hshrink _ _ (haged _)
  · exact haged _

structure Sound (s : State) : Prop where
  /-- As many fragments as are counted, and in order unless one reaches behind byte 65535. -/
  queue : ∀ b, ∀ fp ∈ s.table.ipq b, fp.nfrags = fp.frags.length ∧
    ((∀ m ∈ fp.got, m.Fits) → Successive Frag.base Frag.len fp.frags)
  returned : ∀ r ∈ s.out, Good r.1 r.2

theorem reassembly_sound : reassembly.Always Sound := by
  have hinv : reassembly.Always fun s => s.table.Ok ∧ ∀ r ∈ s.out, Good r.1 r.2 := by
    apply System.always_of_step
    · rintro s rfl
      exact ⟨fun _ _ h => (nomatch h), fun _ h => (nomatch h)⟩
    rintro s t ⟨htable, hout⟩ hstep
    cases hstep with
    | reass l alloc m =>
      obtain ⟨hok, hnew⟩ := htable.reass l alloc m
      refine ⟨hok, fun r hr => ?_⟩
      rcases mem_append.mp hr with hr | hr
      · exact (hnew r (Option.mem_toList.mp hr)).1
      · exact hout r hr
    | timeout l => exact ⟨htable.timeout l, hout⟩
    | drain => exact ⟨fun _ _ h => (nomatch h), hout⟩
  intro s hs
  obtain ⟨htable, hout⟩ := hinv s hs
  exact ⟨fun b fp hfp => ⟨(htable b fp hfp).nfrags, (htable b fp hfp).ordered⟩, hout⟩

/-- The last byte of a datagram is from a packet without the flag. -/
def LastByte (s : State) : Prop :=
  ∀ r ∈ s.out, r.1.data ≠ [] → ∃ m ∈ r.2.got, m.more = false ∧ m.start < r.1.data.length ∧
    r.1.data.getLast? = m.data[r.1.data.length - 1 - m.start]?

/-- Queued fragments are in order, wherever they reach. -/
def InOrder (s : State) : Prop :=
  ∀ b, ∀ fp ∈ s.table.ipq b, Successive Frag.base Frag.len fp.frags

def someKey : Key := ⟨1, 1, 2, 17⟩

def someLimits : Limits := ⟨8192, 128⟩

def firstEight : Packet where
  key := someKey
  tos := 0
  hl := 5
  off := 0x2000
  data := [1, 2, 3, 4, 5, 6, 7, 8]
  hl_ge := by decide
  hl_le := by decide
  off_lt := by decide
  frag := by decide
  size := by decide

def emptyLast : Packet where
  key := someKey
  tos := 0
  hl := 5
  off := 1
  data := []
  hl_ge := by decide
  hl_le := by decide
  off_lt := by decide
  frag := by decide
  size := by decide

/-- Some bytes at the last offset there is. -/
def atTheEnd (n : Nat) (h : n ≤ 24) : Packet where
  key := someKey
  tos := 0
  hl := 5
  off := 0x3fff
  data := List.replicate n 0
  hl_ge := by decide
  hl_le := by decide
  off_lt := by decide
  frag := by decide
  size := by
    simp
    omega

/-- A datagram may be ended by a fragment without data, so that its last byte is from one
with the flag; and fragments behind byte 65535 are queued out of order, over each other. -/
theorem last_empty_and_wrapped : ¬ reassembly.Always LastByte ∧ ¬ reassembly.Always InOrder := by
  have start : reassembly.Reachable initial := .start rfl
  constructor
  · intro h
    have hrun :=
      (start.next (.reass someLimits true firstEight)).next (.reass someLimits true emptyLast)
    have hlast := h _ hrun
    revert hlast
    rw [LastByte]
    decide
  · intro h
    have hrun := ((start.next (.reass someLimits true (atTheEnd 16 (by decide)))).next
      (.reass someLimits true (atTheEnd 24 (by decide)))).next
      (.reass someLimits true (atTheEnd 8 (by decide)))
    have hordered := h _ hrun (ipreassHash someKey.src someKey.id)
    revert hordered
    simp only [Successive]
    decide

end XnuXzs.IpReass
