import TaoDag.Reachability.Propagate
import TaoDag.Reachability.Search

namespace TaoDag.Reachability

open MemoryReachabilityStore OrderedTree ReindexOperationContext

variable {C : Prop} {s s' : Store} {p c : Hash} {i j : Interval} {k : Nat}

/-- The free labels of `p` before its first child. -/
def gapBefore (s : Store) (p : Hash) : Nat :=
  match (s.kids p).head? with
  | some f => s.lo f - s.lo p
  | none => 0

/-- The free labels of `p` after its last child. -/
def gapAfter (s : Store) (p : Hash) : Nat :=
  match (s.kids p).getLast? with
  | some l => s.hi p - (s.hi l + 1)
  | none => 0

/-- What a reclaim relies on of its side: `gap` is the room of a block on that side, `ogap` that
on the other. -/
structure SideLaws (side : Side) (gap ogap : Store → Hash → Nat) : Prop where
  remaining : ∀ {C : Prop} {s : Store} {p : Hash}, NestedAt s p → s.kids p ≠ [] → p ∈ s.nodes →
    (∀ c ∈ s.kids p, c ∈ s.nodes) → Returns C (side.remaining s p) (fun i => i.size = gap s p)
  /-- The gaps are read off the block and its children. -/
  frame : ∀ {s s' : Store} {p : Hash}, s'.kids p = s.kids p → s'.iv p = s.iv p →
    (∀ e ∈ s.kids p, s'.iv e = s.iv e) → gap s' p = gap s p ∧ ogap s' p = ogap s p
  gap_le : ∀ {s : Store} {p : Hash}, NestedAt s p → gap s p ≤ labels s p
  narrow_ok : ∀ {i : Interval} {k : Nat}, k ≤ i.size → ∃ j, side.narrow i k = .ok j
  narrow_size : ∀ {i j : Interval} {k : Nat}, side.narrow i k = .ok j → j.size + k = i.size
  shift_size : ∀ {i j : Interval} {k : Nat}, side.shift i k = .ok j → j.size = i.size
  grow_size : ∀ {i j : Interval} {k : Nat}, side.grow i k = .ok j → j.size = i.size + k
  /-- Narrowing a block takes from its gap. -/
  narrow_self : ∀ {s s' : Store} {p : Hash} {k : Nat}, NestedAt s p → s.kids p ≠ [] →
    SameShape s s' → side.narrow (s.iv p) k = .ok (s'.iv p) →
    (∀ e ∈ s.kids p, s'.iv e = s.iv e) → k ≤ gap s p →
    NestedAt s' p ∧ gap s' p + k = gap s p ∧ ogap s' p = ogap s p
  siblings : ∀ {pre post : List Hash} {e : Hash}, e ∈ side.siblings (pre, post) → e ∈ pre ++ post
  siblings_nodup : ∀ {pre post : List Hash}, (pre ++ post).Nodup →
    (side.siblings (pre, post)).Nodup
  /-- There is room to move the siblings of a block that is narrowed. -/
  shift_ok : ∀ {s : Store} {p c e : Hash} {pre post : List Hash} {k : Nat}, NestedAt s p →
    s.kids p = pre ++ c :: post → e ∈ side.siblings (pre, post) → k ≤ labels s c →
    (∃ j, side.shift (s.iv e) k = .ok j) ∧ ∃ j, side.grow (s.iv e) k = .ok j
  /-- A child is narrowed, the siblings follow, and the gap of the parent grows. -/
  offset : ∀ {s s' : Store} {p c : Hash} {pre post : List Hash} {k : Nat}, NestedAt s p →
    (s.kids p).Nodup → s.kids p = pre ++ c :: post → SameShape s s' → s'.iv p = s.iv p →
    side.narrow (s.iv c) k = .ok (s'.iv c) →
    (∀ e ∈ side.siblings (pre, post), side.shift (s.iv e) k = .ok (s'.iv e)) →
    (∀ e ∈ pre ++ post, e ∉ side.siblings (pre, post) → s'.iv e = s.iv e) →
    NestedAt s' p ∧ gap s' p = gap s p + k ∧ ogap s' p = ogap s p ∧
      (PackedAt s p → PackedAt s' p)
  /-- A child is narrowed, the siblings follow up to one that takes the room. -/
  offset_grow : ∀ {s s' : Store} {p c a : Hash} {pre post near far : List Hash} {k : Nat},
    NestedAt s p → (s.kids p).Nodup → s.kids p = pre ++ c :: post →
    side.siblings (pre, post) = near ++ a :: far → SameShape s s' → s'.iv p = s.iv p →
    side.narrow (s.iv c) k = .ok (s'.iv c) →
    (∀ e ∈ near, side.shift (s.iv e) k = .ok (s'.iv e)) →
    side.grow (s.iv a) k = .ok (s'.iv a) →
    (∀ e ∈ pre ++ post, e ∉ near → e ≠ a → s'.iv e = s.iv e) →
    NestedAt s' p ∧ gap s' p = gap s p ∧ ogap s' p = ogap s p ∧ (PackedAt s p → PackedAt s' p)

section Moved

variable {lo hi lo' hi' : Hash → Nat} {a b : Nat} {l : List Hash}

theorem stacked_add (h : Stacked lo hi a l b)
    (hm : ∀ e ∈ l, lo' e = lo e + k ∧ hi' e = hi e + k) : Stacked lo' hi' (a + k) l (b + k) := by
  induction l generalizing a with
  | nil => exact Nat.add_le_add_right h k
  | cons x l ih =>
    obtain ⟨h1, h2⟩ := hm x (by simp)
    have htail := ih h.2.2 fun e he => hm e (by simp [he])
    have := h.1
    have := h.2.1
    refine ⟨by omega, by omega, htail.mono (by omega) le_rfl⟩

theorem stacked_sub (h : Stacked lo hi (a + k) l (b + k))
    (hm : ∀ e ∈ l, lo' e + k = lo e ∧ hi' e + k = hi e) : Stacked lo' hi' a l b := by
  induction l generalizing a with
  | nil => exact Nat.le_of_add_le_add_right h
  | cons x l ih =>
    obtain ⟨h1, h2⟩ := hm x (by simp)
    have hst : Stacked lo hi (hi' x + 1 + k) l (b + k) := h.2.2.mono (by omega) le_rfl
    have htail := ih hst fun e he => hm e (by simp [he])
    have := h.1
    have := h.2.1
    exact ⟨by omega, by omega, htail⟩

theorem packed_add (h : Packed lo hi a l b)
    (hm : ∀ e ∈ l, lo' e = lo e + k ∧ hi' e = hi e + k) : Packed lo' hi' (a + k) l (b + k) := by
  induction l generalizing a with
  | nil => exact congrArg (· + k) h
  | cons x l ih =>
    obtain ⟨h1, h2⟩ := hm x (by simp)
    have htail := ih h.2.2 fun e he => hm e (by simp [he])
    have hx : hi x + 1 + k = hi' x + 1 := by omega
    rw [hx] at htail
    have := h.1
    have := h.2.1
    exact ⟨by omega, by omega, htail⟩

theorem packed_sub (h : Packed lo hi (a + k) l (b + k))
    (hm : ∀ e ∈ l, lo' e + k = lo e ∧ hi' e + k = hi e) : Packed lo' hi' a l b := by
  induction l generalizing a with
  | nil => exact Nat.add_right_cancel h
  | cons x l ih =>
    obtain ⟨h1, h2⟩ := hm x (by simp)
    have hp : Packed lo hi (hi' x + 1 + k) l (b + k) := by
      have hx : hi' x + 1 + k = hi x + 1 := by omega
      rw [hx]
      exact h.2.2
    have htail := ih hp fun e he => hm e (by simp [he])
    have := h.1
    have := h.2.1
    exact ⟨by omega, by omega, htail⟩

end Moved

section Ops

theorem increase_eq_ok (h : i.increase k = .ok j) :
    j.start = i.start + k ∧ j.stop = i.stop + k :=
  (Interval.increase_spec (C := False) fun hc => hc.elim).post h

theorem decrease_eq_ok (h : i.decrease k = .ok j) :
    j.start + k = i.start ∧ j.stop + k = i.stop :=
  (Interval.decrease_spec (C := False) fun hc => hc.elim).post h

theorem increaseStart_eq_ok (h : i.increaseStart k = .ok j) :
    j.start = i.start + k ∧ j.stop = i.stop :=
  (Interval.increaseStart_spec (C := False) fun hc => hc.elim).post h

theorem decreaseStart_eq_ok (h : i.decreaseStart k = .ok j) :
    j.start + k = i.start ∧ j.stop = i.stop :=
  (Interval.decreaseStart_spec (C := False) fun hc => hc.elim).post h

theorem increaseEnd_eq_ok (h : i.increaseEnd k = .ok j) :
    j.start = i.start ∧ j.stop = i.stop + k :=
  (Interval.increaseEnd_spec (C := False) fun hc => hc.elim).post h

theorem decreaseEnd_eq_ok (h : i.decreaseEnd k = .ok j) :
    j.start = i.start ∧ j.stop + k = i.stop :=
  (Interval.decreaseEnd_spec (C := False) fun hc => hc.elim).post h

end Ops

private theorem lo_def (s : Store) (x : Hash) : s.lo x = (s.iv x).start := rfl

private theorem hi_def (s : Store) (x : Hash) : s.hi x = (s.iv x).stop := rfl

theorem gapBefore_cons {f : Hash} {l : List Hash} (h : s.kids p = f :: l) :
    gapBefore s p = s.lo f - s.lo p := by
  rw [gapBefore, h]
  rfl

theorem gapAfter_concat {f : Hash} {l : List Hash} (h : s.kids p = l ++ [f]) :
    gapAfter s p = s.hi p - (s.hi f + 1) := by
  rw [gapAfter, h, List.getLast?_concat]

theorem gapBefore_congr (hk : s'.kids p = s.kids p) (hp : s'.iv p = s.iv p)
    (he : ∀ e ∈ s.kids p, s'.iv e = s.iv e) : gapBefore s' p = gapBefore s p := by
  rw [gapBefore, gapBefore, hk]
  cases hh : (s.kids p).head? with
  | none => rfl
  | some f =>
    have hf : f ∈ s.kids p := List.mem_of_mem_head? hh
    simp only [lo_def, hp, he f hf]

theorem gapAfter_congr (hk : s'.kids p = s.kids p) (hp : s'.iv p = s.iv p)
    (he : ∀ e ∈ s.kids p, s'.iv e = s.iv e) : gapAfter s' p = gapAfter s p := by
  rw [gapAfter, gapAfter, hk]
  cases hl : (s.kids p).getLast? with
  | none => rfl
  | some l =>
    have hm : l ∈ s.kids p := List.mem_of_getLast? hl
    simp only [hi_def, hp, he l hm]

theorem gapBefore_le (hn : NestedAt s p) : gapBefore s p ≤ labels s p := by
  rw [gapBefore, labels]
  split
  · next f hf =>
    have := hn.kid (List.mem_of_mem_head? hf)
    omega
  · exact Nat.zero_le _

theorem gapAfter_le (hn : NestedAt s p) : gapAfter s p ≤ labels s p := by
  rw [gapAfter, labels]
  split
  · next l hl =>
    have := hn.kid (List.mem_of_getLast? hl)
    omega
  · exact Nat.zero_le _

/-- The first child of a block, for a list of children with `c` in it. -/
private theorem head_cases (pre post : List Hash) (c : Hash) :
    (pre = [] ∧ pre ++ c :: post = c :: post) ∨
      ∃ f rest, pre = f :: rest ∧ pre ++ c :: post = f :: (rest ++ c :: post) := by
  cases pre with
  | nil => exact Or.inl ⟨rfl, rfl⟩
  | cons f rest => exact Or.inr ⟨f, rest, rfl, rfl⟩

private theorem last_cases (pre post : List Hash) (c : Hash) :
    (post = [] ∧ pre ++ c :: post = pre ++ [c]) ∨
      ∃ init l, post = init ++ [l] ∧ pre ++ c :: post = (pre ++ c :: init) ++ [l] := by
  rcases List.eq_nil_or_concat post with rfl | ⟨init, l, rfl⟩
  · exact Or.inl ⟨rfl, rfl⟩
  · refine Or.inr ⟨init, l, by simp, by simp⟩

section Before

theorem remainingBefore_spec (hn : NestedAt s p) (hk : s.kids p ≠ []) (hp : p ∈ s.nodes)
    (hkids : ∀ c ∈ s.kids p, c ∈ s.nodes) :
    Returns C (s.intervalRemainingBefore p) (fun i => i.size = gapBefore s p) := by
  obtain ⟨f, l, hfl⟩ := List.exists_cons_of_ne_nil hk
  have hf := hn.kid (hfl ▸ List.mem_cons_self ..)
  have hpos := (s.iv p).pos
  have hlt := (s.iv f).lt
  rw [← lo_def] at hpos
  rw [← hi_def] at hlt
  refine Returns.bind (intervalChildrenCapacity_spec (fun _ => hp) fun _ => hn.le) fun cap hcap => ?_
  refine Returns.bind (getChildren_spec fun _ => hp) fun children hch => ?_
  rw [hch.1, hfl]
  simp only [List.head?_cons]
  refine Returns.bind (getInterval_spec fun _ => hkids f (hfl ▸ List.mem_cons_self ..))
    fun fi hfi => ?_
  have hfs : fi.start = s.lo f := by rw [hfi.1, lo_def]
  refine Returns.bind (subU64_spec fun _ => by omega) fun e he => ?_
  refine (Interval.new_spec fun _ => by omega).mono fun i hi => ?_
  rw [gapBefore_cons hfl, Interval.size, hi.1, hi.2, he.1, hcap.1.1, hfs]
  omega

theorem beforeLaws : SideLaws Side.before gapBefore gapAfter where
  remaining := remainingBefore_spec
  frame := fun hk hp he => ⟨gapBefore_congr hk hp he, gapAfter_congr hk hp he⟩
  gap_le := gapBefore_le
  narrow_ok := by
    intro i k hk
    obtain ⟨j, hj, _⟩ := (Interval.increaseStart_spec (i := i) (C := True) fun _ => hk).total
    exact ⟨j, hj⟩
  narrow_size := by
    intro i j k h
    have := increaseStart_eq_ok h
    have := i.size_add_start
    have := j.size_add_start
    omega
  shift_size := by
    intro i j k h
    have := increase_eq_ok h
    have := i.size_add_start
    have := j.size_add_start
    omega
  grow_size := by
    intro i j k h
    have := increaseEnd_eq_ok h
    have := i.size_add_start
    have := j.size_add_start
    omega
  narrow_self := by
    intro s s' p k hn hk hs hnar hkids hgap
    have hp : s'.lo p = s.lo p + k ∧ s'.hi p = s.hi p := increaseStart_eq_ok hnar
    obtain ⟨f, l, hfl⟩ := List.exists_cons_of_ne_nil hk
    have hf := hn.kid (hfl ▸ List.mem_cons_self ..)
    have hgapf := gapBefore_cons hfl
    have hfl' : s'.kids p = f :: l := by rw [hs.kids, hfl]
    have hlof : s'.lo f = s.lo f := lo_of_iv (hkids f (hfl ▸ List.mem_cons_self ..))
    refine ⟨?_, ?_, ?_⟩
    · have hst : Stacked s'.lo s'.hi (s.lo p) (s.kids p) (s.hi p) :=
        Stacked.congr hn (fun e he => lo_of_iv (hkids e he)) fun e he => hi_of_iv (hkids e he)
      rw [hfl] at hst
      rw [NestedAt, Nested, hfl', hp.2]
      exact ⟨by omega, hst.2⟩
    · rw [gapBefore_cons hfl', hlof, hp.1]
      omega
    · obtain ⟨init, g, hg⟩ := List.eq_nil_or_concat (s.kids p) |>.resolve_left hk
      rw [List.concat_eq_append] at hg
      have hg' : s'.kids p = init ++ [g] := by rw [hs.kids, hg]
      have hgm : g ∈ s.kids p := by simp [hg]
      rw [gapAfter_concat hg, gapAfter_concat hg', hp.2, hi_of_iv (hkids g hgm)]
  siblings := by
    intro pre post e he
    exact List.mem_append_left _ (List.mem_reverse.mp he)
  siblings_nodup := fun h => List.nodup_reverse.mpr (List.nodup_append.mp h).1
  shift_ok := by
    intro s p c e pre post k hn hk he hle
    rw [NestedAt, Nested, hk] at hn
    have he' : e ∈ pre := List.mem_reverse.mp he
    have hsub : [e, c].Sublist (pre ++ c :: post) :=
      (List.singleton_sublist.mpr he').append
        (List.singleton_sublist.mpr (List.mem_cons_self ..))
    have hlt := hn.lt_of_pair hsub
    have hc := hn.mem (List.mem_append_right pre (List.mem_cons_self ..))
    have hstop := (s.iv c).lt
    rw [← hi_def] at hstop
    rw [labels] at hle
    have hbound : (s.iv e).stop + k < u64Max := by
      rw [← hi_def]
      omega
    obtain ⟨j, hj, _⟩ := (Interval.increase_spec (i := s.iv e) (C := True) fun _ => hbound).total
    obtain ⟨j', hj', _⟩ :=
      (Interval.increaseEnd_spec (i := s.iv e) (C := True) fun _ => hbound).total
    exact ⟨⟨j, hj⟩, j', hj'⟩
  offset := by
    intro s s' p c pre post k hn hnd hk hs hp hnar hshift hrest
    have hc : s'.lo c = s.lo c + k ∧ s'.hi c = s.hi c := increaseStart_eq_ok hnar
    have hpre : ∀ e ∈ pre, s'.lo e = s.lo e + k ∧ s'.hi e = s.hi e + k :=
      fun e he => increase_eq_ok (hshift e (List.mem_reverse.mpr he))
    rw [hk] at hnd
    have hpost : ∀ e ∈ post, s'.iv e = s.iv e := by
      intro e he
      refine hrest e (List.mem_append_right _ he) fun hmem => ?_
      exact (List.nodup_append.mp hnd).2.2 e (List.mem_reverse.mp hmem) e
        (List.mem_cons_of_mem _ he) rfl
    have hk' : s'.kids p = pre ++ c :: post := by rw [hs.kids, hk]
    have hlp := lo_of_iv hp
    have hhp := hi_of_iv hp
    rw [NestedAt, Nested, hk] at hn
    obtain ⟨m, hst, hm, hcv, htail⟩ := stacked_append.mp hn
    have hclt := hn.mem (List.mem_append_right pre (List.mem_cons_self ..))
    have hvalid := lo_le_hi_succ s' c
    have htail' : Stacked s'.lo s'.hi (s'.hi c + 1) post (s'.hi p) := by
      rw [hc.2, hhp]
      exact htail.congr (fun e he => lo_of_iv (hpost e he)) fun e he => hi_of_iv (hpost e he)
    refine ⟨?_, ?_, ?_, ?_⟩
    · rw [NestedAt, Nested, hk', hlp]
      exact stacked_append.mpr ⟨m + k, (stacked_add hst hpre).mono (by omega) le_rfl,
        by omega, hvalid, htail'⟩
    · rcases head_cases pre post c with ⟨_, heq⟩ | ⟨f, rest, hf, heq⟩
      · rw [gapBefore_cons (hk.trans heq), gapBefore_cons (hk'.trans heq), hlp, hc.1]
        omega
      · have hfp := hpre f (hf ▸ List.mem_cons_self ..)
        have hfm := hn.mem (x := f) (by simp [hf])
        rw [gapBefore_cons (hk.trans heq), gapBefore_cons (hk'.trans heq), hlp, hfp.1]
        omega
    · rcases last_cases pre post c with ⟨_, heq⟩ | ⟨init, l, hl, heq⟩
      · rw [gapAfter_concat (hk.trans heq), gapAfter_concat (hk'.trans heq), hhp, hc.2]
      · have hlm : l ∈ post := by simp [hl]
        rw [gapAfter_concat (hk.trans heq), gapAfter_concat (hk'.trans heq), hhp,
          hi_of_iv (hpost l hlm)]
    · rintro ⟨a, b, hpk⟩
      rw [hk] at hpk
      obtain ⟨m', hpk1, hcm, _, hpk2⟩ := packed_append.mp hpk
      refine ⟨a + k, b, ?_⟩
      rw [hk']
      refine packed_append.mpr ⟨m' + k, packed_add hpk1 hpre, by omega, hvalid, ?_⟩
      rw [hc.2]
      exact hpk2.congr (fun e he => lo_of_iv (hpost e he)) fun e he => hi_of_iv (hpost e he)
  offset_grow := by
    intro s s' p c a pre post near far k hn hnd hk hsib hs hp hnar hshift hgrow hrest
    have hpre : pre = far.reverse ++ a :: near.reverse := by
      have hrev := congrArg List.reverse hsib
      simpa [Side.before] using hrev
    have hc : s'.lo c = s.lo c + k ∧ s'.hi c = s.hi c := increaseStart_eq_ok hnar
    have ha : s'.lo a = s.lo a ∧ s'.hi a = s.hi a + k := increaseEnd_eq_ok hgrow
    have hnear : ∀ e ∈ near.reverse, s'.lo e = s.lo e + k ∧ s'.hi e = s.hi e + k :=
      fun e he => increase_eq_ok (hshift e (List.mem_reverse.mp he))
    rw [hk, hpre] at hnd
    simp only [List.append_assoc, List.cons_append, List.nodup_append, List.nodup_cons,
      List.mem_append, List.mem_cons, List.mem_reverse, not_or] at hnd
    have hfar : ∀ e ∈ far.reverse, s'.iv e = s.iv e := by
      intro e he
      rw [List.mem_reverse] at he
      have hdis := hnd.2.2 e he
      refine hrest e (by simp [hpre, he]) (fun hmem => ?_) fun hea => ?_
      · exact hdis e (Or.inr (Or.inl hmem)) rfl
      · exact hdis a (Or.inl rfl) hea
    have hpost : ∀ e ∈ post, s'.iv e = s.iv e := by
      intro e he
      refine hrest e (List.mem_append_right _ he) (fun hmem => ?_) fun hea => ?_
      · exact hnd.2.1.2.2.2 e hmem e (Or.inr he) rfl
      · exact hnd.2.1.1.2.2 (hea ▸ he)
    have hlp := lo_of_iv hp
    have hhp := hi_of_iv hp
    have hkids : pre ++ c :: post = far.reverse ++ a :: (near.reverse ++ c :: post) := by
      rw [hpre]
      simp
    have hk' : s'.kids p = pre ++ c :: post := by rw [hs.kids, hk]
    rw [NestedAt, Nested, hk, hkids] at hn
    obtain ⟨m, hst, ham, hav, hrest1⟩ := stacked_append.mp hn
    obtain ⟨m', hst', hm', hcv, htail⟩ := stacked_append.mp hrest1
    have hvalid := lo_le_hi_succ s' c
    have hav' := lo_le_hi_succ s' a
    have htail' : Stacked s'.lo s'.hi (s'.hi c + 1) post (s'.hi p) := by
      rw [hc.2, hhp]
      exact htail.congr (fun e he => lo_of_iv (hpost e he)) fun e he => hi_of_iv (hpost e he)
    refine ⟨?_, ?_, ?_, ?_⟩
    · rw [NestedAt, Nested, hk', hkids, hlp]
      refine stacked_append.mpr ⟨m, hst.congr (fun e he => lo_of_iv (hfar e he))
        (fun e he => hi_of_iv (hfar e he)), by omega, hav', ?_⟩
      refine stacked_append.mpr ⟨m' + k, ?_, by omega, hvalid, htail'⟩
      exact (stacked_add hst' hnear).mono (by omega) le_rfl
    · rw [hkids] at hk hk'
      rcases head_cases far.reverse (near.reverse ++ c :: post) a with ⟨_, heq⟩ | ⟨f, rest, hf, heq⟩
      · rw [gapBefore_cons (hk.trans heq), gapBefore_cons (hk'.trans heq), hlp, ha.1]
      · have hfm : f ∈ far.reverse := hf ▸ List.mem_cons_self ..
        rw [gapBefore_cons (hk.trans heq), gapBefore_cons (hk'.trans heq), hlp,
          lo_of_iv (hfar f hfm)]
    · rcases last_cases pre post c with ⟨_, heq⟩ | ⟨init, l, hl, heq⟩
      · rw [gapAfter_concat (hk.trans heq), gapAfter_concat (hk'.trans heq), hhp, hc.2]
      · have hlm : l ∈ post := by simp [hl]
        rw [gapAfter_concat (hk.trans heq), gapAfter_concat (hk'.trans heq), hhp,
          hi_of_iv (hpost l hlm)]
    · rintro ⟨x, y, hpk⟩
      rw [hk, hkids] at hpk
      obtain ⟨n, hpk1, han, _, hpk2⟩ := packed_append.mp hpk
      obtain ⟨n', hpk3, hcn, _, hpk4⟩ := packed_append.mp hpk2
      refine ⟨x, y, ?_⟩
      rw [hk', hkids]
      refine packed_append.mpr ⟨n, hpk1.congr (fun e he => lo_of_iv (hfar e he))
        (fun e he => hi_of_iv (hfar e he)), by omega, hav', ?_⟩
      refine packed_append.mpr ⟨n' + k, ?_, by omega, hvalid, ?_⟩
      · have hstart : s'.hi a + 1 = s.hi a + 1 + k := by omega
        rw [hstart]
        exact packed_add hpk3 hnear
      · rw [hc.2]
        exact hpk4.congr (fun e he => lo_of_iv (hpost e he)) fun e he => hi_of_iv (hpost e he)

end Before

section After

theorem remainingAfter_spec (hn : NestedAt s p) (hk : s.kids p ≠ []) (hp : p ∈ s.nodes)
    (hkids : ∀ c ∈ s.kids p, c ∈ s.nodes) :
    Returns C (s.intervalRemainingAfter p) (fun i => i.size = gapAfter s p) := by
  obtain ⟨init, f, hfl⟩ := List.eq_nil_or_concat (s.kids p) |>.resolve_left hk
  rw [List.concat_eq_append] at hfl
  have hfm : f ∈ s.kids p := by simp [hfl]
  have hf := hn.kid hfm
  have hpos := (s.iv f).pos
  have hlt := (s.iv p).lt
  rw [← lo_def] at hpos
  rw [← hi_def] at hlt
  refine Returns.bind (intervalChildrenCapacity_spec (fun _ => hp) fun _ => hn.le) fun cap hcap => ?_
  refine Returns.bind (getChildren_spec fun _ => hp) fun children hch => ?_
  rw [hch.1, hfl, List.getLast?_concat]
  refine Returns.bind (getInterval_spec fun _ => hkids f hfm) fun fi hfi => ?_
  have hfs : fi.stop = s.hi f := by rw [hfi.1, hi_def]
  refine Returns.bind (addU64_spec fun _ => by omega) fun e he => ?_
  refine (Interval.new_spec fun _ => by omega).mono fun i hi => ?_
  rw [gapAfter_concat hfl, Interval.size, hi.1, hi.2, he.1, hfs]
  omega

theorem afterLaws : SideLaws Side.after gapAfter gapBefore where
  remaining := remainingAfter_spec
  frame := fun hk hp he => ⟨gapAfter_congr hk hp he, gapBefore_congr hk hp he⟩
  gap_le := gapAfter_le
  narrow_ok := by
    intro i k hk
    obtain ⟨j, hj, _⟩ := (Interval.decreaseEnd_spec (i := i) (C := True) fun _ => hk).total
    exact ⟨j, hj⟩
  narrow_size := by
    intro i j k h
    have := decreaseEnd_eq_ok h
    have := i.size_add_start
    have := j.size_add_start
    omega
  shift_size := by
    intro i j k h
    have := decrease_eq_ok h
    have := i.size_add_start
    have := j.size_add_start
    omega
  grow_size := by
    intro i j k h
    have := decreaseStart_eq_ok h
    have := i.size_add_start
    have := j.size_add_start
    omega
  narrow_self := by
    intro s s' p k hn hk hs hnar hkids hgap
    have hp : s'.lo p = s.lo p ∧ s'.hi p + k = s.hi p := decreaseEnd_eq_ok hnar
    obtain ⟨init, f, hfl⟩ := List.eq_nil_or_concat (s.kids p) |>.resolve_left hk
    rw [List.concat_eq_append] at hfl
    have hfm : f ∈ s.kids p := by simp [hfl]
    have hf := hn.kid hfm
    have hgapf := gapAfter_concat hfl
    have hfl' : s'.kids p = init ++ [f] := by rw [hs.kids, hfl]
    have hhif : s'.hi f = s.hi f := hi_of_iv (hkids f hfm)
    refine ⟨?_, ?_, ?_⟩
    · have hst : Stacked s'.lo s'.hi (s.lo p) (s.kids p) (s.hi p) :=
        Stacked.congr hn (fun e he => lo_of_iv (hkids e he)) fun e he => hi_of_iv (hkids e he)
      rw [hfl] at hst
      rw [NestedAt, Nested, hfl', hp.1]
      obtain ⟨m, hinit, hm, hv, _⟩ := stacked_append.mp hst
      refine stacked_append.mpr ⟨m, hinit, hm, hv, ?_⟩
      have hlast : s'.hi f + 1 ≤ s'.hi p := by omega
      exact hlast
    · rw [gapAfter_concat hfl', hhif]
      omega
    · obtain ⟨g, l, hg⟩ := List.exists_cons_of_ne_nil hk
      have hg' : s'.kids p = g :: l := by rw [hs.kids, hg]
      have hgm : g ∈ s.kids p := hg ▸ List.mem_cons_self ..
      rw [gapBefore_cons hg, gapBefore_cons hg', hp.1, lo_of_iv (hkids g hgm)]
  siblings := by
    intro pre post e he
    exact List.mem_append_right _ he
  siblings_nodup := fun h => (List.nodup_append.mp h).2.1
  shift_ok := by
    intro s p c e pre post k hn hk he hle
    rw [NestedAt, Nested, hk] at hn
    have he' : e ∈ post := he
    have hsub : [c, e].Sublist (pre ++ c :: post) :=
      ((List.singleton_sublist.mpr he').cons_cons c).trans (List.sublist_append_right pre _)
    have hlt := hn.lt_of_pair hsub
    have hc := hn.mem (List.mem_append_right pre (List.mem_cons_self ..))
    have hstart := (s.iv c).pos
    rw [← lo_def] at hstart
    rw [labels] at hle
    have hbound : k < (s.iv e).start := by
      rw [← lo_def]
      omega
    obtain ⟨j, hj, _⟩ := (Interval.decrease_spec (i := s.iv e) (C := True) fun _ => hbound).total
    obtain ⟨j', hj', _⟩ :=
      (Interval.decreaseStart_spec (i := s.iv e) (C := True) fun _ => hbound).total
    exact ⟨⟨j, hj⟩, j', hj'⟩
  offset := by
    intro s s' p c pre post k hn hnd hk hs hp hnar hshift hrest
    have hc : s'.lo c = s.lo c ∧ s'.hi c + k = s.hi c := decreaseEnd_eq_ok hnar
    have hpost : ∀ e ∈ post, s'.lo e + k = s.lo e ∧ s'.hi e + k = s.hi e :=
      fun e he => decrease_eq_ok (hshift e he)
    rw [hk] at hnd
    have hpre : ∀ e ∈ pre, s'.iv e = s.iv e := by
      intro e he
      refine hrest e (List.mem_append_left _ he) fun hmem => ?_
      exact (List.nodup_append.mp hnd).2.2 e he e (List.mem_cons_of_mem _ hmem) rfl
    have hk' : s'.kids p = pre ++ c :: post := by rw [hs.kids, hk]
    have hlp := lo_of_iv hp
    have hhp := hi_of_iv hp
    rw [NestedAt, Nested, hk] at hn
    obtain ⟨m, hst, hm, hcv, htail⟩ := stacked_append.mp hn
    have hclt := hn.mem (List.mem_append_right pre (List.mem_cons_self ..))
    have hvalid := lo_le_hi_succ s' c
    have hst' : Stacked s'.lo s'.hi (s'.lo p) pre m := by
      rw [hlp]
      exact hst.congr (fun e he => lo_of_iv (hpre e he)) fun e he => hi_of_iv (hpre e he)
    have hsplit : s.hi c + 1 = s'.hi c + 1 + k := by omega
    refine ⟨?_, ?_, ?_, ?_⟩
    · have htail' : Stacked s'.lo s'.hi (s'.hi c + 1) post (s.hi p - k) := by
        refine stacked_sub (k := k) ?_ hpost
        rw [← hsplit]
        exact htail.mono le_rfl (by omega)
      rw [NestedAt, Nested, hk']
      exact stacked_append.mpr ⟨m, hst', by omega, hvalid, htail'.mono le_rfl (by omega)⟩
    · rcases last_cases pre post c with ⟨_, heq⟩ | ⟨init, l, hl, heq⟩
      · rw [gapAfter_concat (hk.trans heq), gapAfter_concat (hk'.trans heq), hhp]
        omega
      · have hlm : l ∈ post := by simp [hl]
        have hlp' := hpost l hlm
        have hlb := htail.mem hlm
        rw [gapAfter_concat (hk.trans heq), gapAfter_concat (hk'.trans heq), hhp]
        omega
    · rcases head_cases pre post c with ⟨_, heq⟩ | ⟨f, rest, hf, heq⟩
      · rw [gapBefore_cons (hk.trans heq), gapBefore_cons (hk'.trans heq), hlp, hc.1]
      · have hfm : f ∈ pre := hf ▸ List.mem_cons_self ..
        rw [gapBefore_cons (hk.trans heq), gapBefore_cons (hk'.trans heq), hlp,
          lo_of_iv (hpre f hfm)]
    · rintro ⟨a, b, hpk⟩
      rw [hk] at hpk
      obtain ⟨m', hpk1, hcm, _, hpk2⟩ := packed_append.mp hpk
      have hb := hpk2.stacked.le
      refine ⟨a, b - k, ?_⟩
      rw [hk']
      refine packed_append.mpr ⟨m', hpk1.congr (fun e he => lo_of_iv (hpre e he))
        (fun e he => hi_of_iv (hpre e he)), by omega, hvalid, ?_⟩
      refine packed_sub (k := k) ?_ hpost
      have hbk : b - k + k = b := by omega
      rw [← hsplit, hbk]
      exact hpk2
  offset_grow := by
    intro s s' p c a pre post near far k hn hnd hk hsib hs hp hnar hshift hgrow hrest
    have hpostdef : post = near ++ a :: far := hsib
    have hc : s'.lo c = s.lo c ∧ s'.hi c + k = s.hi c := decreaseEnd_eq_ok hnar
    have ha : s'.lo a + k = s.lo a ∧ s'.hi a = s.hi a := decreaseStart_eq_ok hgrow
    have hnear : ∀ e ∈ near, s'.lo e + k = s.lo e ∧ s'.hi e + k = s.hi e :=
      fun e he => decrease_eq_ok (hshift e he)
    rw [hk, hpostdef] at hnd
    simp only [List.nodup_append, List.nodup_cons, List.mem_append, List.mem_cons, not_or] at hnd
    have hfar : ∀ e ∈ far, s'.iv e = s.iv e := by
      intro e he
      refine hrest e (by simp [hpostdef, he]) (fun hmem => ?_) fun hea => ?_
      · exact hnd.2.1.2.2.2 e hmem e (Or.inr he) rfl
      · exact hnd.2.1.2.2.1.1 (hea ▸ he)
    have hpre : ∀ e ∈ pre, s'.iv e = s.iv e := by
      intro e he
      have hdis := hnd.2.2 e he
      refine hrest e (List.mem_append_left _ he) (fun hmem => ?_) fun hea => ?_
      · exact hdis e (Or.inr (Or.inl hmem)) rfl
      · exact hdis a (Or.inr (Or.inr (Or.inl rfl))) hea
    have hlp := lo_of_iv hp
    have hhp := hi_of_iv hp
    have hk' : s'.kids p = pre ++ c :: post := by rw [hs.kids, hk]
    rw [NestedAt, Nested, hk] at hn
    have hclt := hn.mem (List.mem_append_right pre (List.mem_cons_self ..))
    obtain ⟨m, hst, hm, hcv, htail⟩ := stacked_append.mp hn
    rw [hpostdef] at htail
    obtain ⟨m', hst', ham, hav, hfarst⟩ := stacked_append.mp htail
    have hm' := hst'.le
    have hvalid := lo_le_hi_succ s' c
    have hav' := lo_le_hi_succ s' a
    have hsplit : s.hi c + 1 = s'.hi c + 1 + k := by omega
    have hmk : m' - k + k = m' := by omega
    have hpre' : Stacked s'.lo s'.hi (s'.lo p) pre m := by
      rw [hlp]
      exact hst.congr (fun e he => lo_of_iv (hpre e he)) fun e he => hi_of_iv (hpre e he)
    refine ⟨?_, ?_, ?_, ?_⟩
    · have hnear' : Stacked s'.lo s'.hi (s'.hi c + 1) near (m' - k) := by
        refine stacked_sub (k := k) ?_ hnear
        rw [← hsplit, hmk]
        exact hst'
      have hfar' : Stacked s'.lo s'.hi (s'.hi a + 1) far (s'.hi p) := by
        rw [ha.2, hhp]
        exact hfarst.congr (fun e he => lo_of_iv (hfar e he)) fun e he => hi_of_iv (hfar e he)
      rw [NestedAt, Nested, hk', hpostdef]
      refine stacked_append.mpr ⟨m, hpre', by omega, hvalid, ?_⟩
      exact stacked_append.mpr ⟨m' - k, hnear', by omega, hav', hfar'⟩
    · rw [hpostdef] at hk hk'
      have hassoc : ∀ l : List Hash, pre ++ c :: (near ++ l) = (pre ++ c :: near) ++ l := by simp
      rw [hassoc] at hk hk'
      rcases last_cases (pre ++ c :: near) far a with ⟨_, heq⟩ | ⟨init, l, hl, heq⟩
      · rw [gapAfter_concat (hk.trans heq), gapAfter_concat (hk'.trans heq), hhp, ha.2]
      · have hlm : l ∈ far := by simp [hl]
        rw [gapAfter_concat (hk.trans heq), gapAfter_concat (hk'.trans heq), hhp,
          hi_of_iv (hfar l hlm)]
    · rcases head_cases pre post c with ⟨_, heq⟩ | ⟨f, rest, hf, heq⟩
      · rw [gapBefore_cons (hk.trans heq), gapBefore_cons (hk'.trans heq), hlp, hc.1]
      · have hfm : f ∈ pre := hf ▸ List.mem_cons_self ..
        rw [gapBefore_cons (hk.trans heq), gapBefore_cons (hk'.trans heq), hlp,
          lo_of_iv (hpre f hfm)]
    · rintro ⟨x, y, hpk⟩
      rw [hk, hpostdef] at hpk
      obtain ⟨n, hpk1, hcn, _, hpk2⟩ := packed_append.mp hpk
      obtain ⟨n', hpk3, han, _, hpk4⟩ := packed_append.mp hpk2
      have hn' := hpk3.stacked.le
      have hnk : n' - k + k = n' := by omega
      refine ⟨x, y, ?_⟩
      rw [hk', hpostdef]
      refine packed_append.mpr ⟨n, hpk1.congr (fun e he => lo_of_iv (hpre e he))
        (fun e he => hi_of_iv (hpre e he)), by omega, hvalid, ?_⟩
      refine packed_append.mpr ⟨n' - k, ?_, by omega, hav', ?_⟩
      · refine packed_sub (k := k) ?_ hnear
        rw [← hsplit, hnk]
        exact hpk3
      · rw [ha.2]
        exact hpk4.congr (fun e he => lo_of_iv (hfar e he)) fun e he => hi_of_iv (hfar e he)

end After

end TaoDag.Reachability
