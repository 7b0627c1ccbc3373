import TaoDag.Reachability.Shape

namespace TaoDag.Reachability

open MemoryReachabilityStore OrderedTree

variable {C : Prop} {s : Store} {x y : Hash}

theorem lo_le_hi_succ (s : Store) (x : Hash) : s.lo x ≤ s.hi x + 1 := (s.iv x).le

theorem isStrictChainAncestorOf_spec (hx : C → x ∈ s.nodes) (hy : C → y ∈ s.nodes) :
    Returns C (isStrictChainAncestorOf s x y) (fun b =>
      (b = true ↔ s.lo x ≤ s.lo y ∧ s.hi y < s.hi x) ∧ x ∈ s.nodes ∧ y ∈ s.nodes) := by
  refine Returns.bind (getInterval_spec hx) fun i hi => ?_
  refine Returns.bind (getInterval_spec hy) fun j hj => ?_
  refine Returns.pure ⟨?_, hi.2, hj.2⟩
  rw [hi.1, hj.1]
  exact Interval.strictlyContains_iff

theorem isChainAncestorOf_spec (hx : C → x ∈ s.nodes) (hy : C → y ∈ s.nodes) :
    Returns C (isChainAncestorOf s x y) (fun b =>
      (b = true ↔ s.lo x ≤ s.lo y ∧ s.hi y ≤ s.hi x) ∧ x ∈ s.nodes ∧ y ∈ s.nodes) := by
  refine Returns.bind (getInterval_spec hx) fun i hi => ?_
  refine Returns.bind (getInterval_spec hy) fun j hj => ?_
  refine Returns.pure ⟨?_, hi.2, hj.2⟩
  rw [hi.1, hj.1]
  exact Interval.contains_iff

/-- The listed blocks follow one another by their labels. -/
def Ordered (s : Store) (l : List Hash) : Prop := l.Pairwise fun a b => s.hi a < s.lo b

theorem ordered_of_stacked {a b : Nat} {l : List Hash} (h : Stacked s.lo s.hi a l b) :
    Ordered s l := by
  rw [Ordered, List.pairwise_iff_forall_sublist]
  intro u v huv
  exact h.lt_of_pair huv

theorem assertHashesOrdered_spec {l : List Hash} (hl : C → ∀ h ∈ l, h ∈ s.nodes)
    (ho : Ordered s l) :
    Returns C (assertHashesOrdered s l) (fun _ => ∀ h ∈ l, h ∈ s.nodes) := by
  refine Returns.bind (Returns.mapM fun h hh =>
    unwrap_returns (getInterval_spec fun hc => hl hc h hh)) fun is his => ?_
  refine (assert_spec fun _ => ?_).mono fun _ _ => his.2
  rw [his.1, List.isChain_map]
  exact ho.isChain

theorem starts_spec {l : List Hash} (hl : ∀ h ∈ l, h ∈ s.nodes) :
    Returns C (l.mapM fun c => do return (← unwrap (s.getInterval c)).start)
      (fun starts => starts = l.map s.lo) := by
  refine (Returns.mapM (P := fun _ => True) fun h hh => ?_).mono fun starts hs => hs.1
  refine Returns.bind (unwrap_returns (getInterval_spec fun _ => hl h hh)) fun i hi => ?_
  exact Returns.pure ⟨by rw [hi.1]; rfl, trivial⟩

/-- Where the search lands among the starts of a list cut at the point. -/
private theorem findIdx_cut {pre post : List Hash} {point : Nat}
    (hpre : ∀ e ∈ pre, s.lo e < point) (hpost : ∀ e ∈ post, point < s.lo e) :
    ((pre ++ post).map s.lo).findIdx (point ≤ ·) = pre.length := by
  have hlow : (pre.map s.lo).findIdx (fun n => decide (point ≤ n)) = (pre.map s.lo).length := by
    rw [List.findIdx_eq_length]
    intro n hn
    obtain ⟨e, he, rfl⟩ := List.mem_map.mp hn
    have := hpre e he
    exact decide_eq_false (by omega)
  have hhigh : (post.map s.lo).findIdx (fun n => decide (point ≤ n)) = 0 := by
    cases post with
    | nil => rfl
    | cons e post =>
      have := hpost e (by simp)
      rw [List.map_cons, List.findIdx_cons, decide_eq_true (by omega)]
      rfl
  rw [List.map_append, List.findIdx_append, hlow, hhigh]
  simp

/-- The search finds the block of the list whose labels contain those of `y`. -/
theorem binarySearchDescendant_found {pre post : List Hash} {c : Hash}
    (hl : C → (∀ h ∈ pre ++ c :: post, h ∈ s.nodes) ∧ y ∈ s.nodes)
    (ho : Ordered s (pre ++ c :: post)) (hpre : ∀ e ∈ pre, s.lo e ≤ s.hi e)
    (hlo : s.lo c ≤ s.lo y) (hhi : s.hi y ≤ s.hi c) (hy : s.lo y ≤ s.hi y) :
    Returns C (binarySearchDescendant s (pre ++ c :: post) y)
      (fun r => r = .found c pre.length) := by
  refine Returns.bind (assertHashesOrdered_spec (fun hc => (hl hc).1) ho) fun _ hmem => ?_
  refine Returns.bind (getInterval_spec fun hc => (hl hc).2) fun i hi => ?_
  refine Returns.bind (starts_spec hmem) fun starts hs => ?_
  have hcut := List.pairwise_append.mp ho
  have hlow : ∀ e ∈ pre, s.lo e < s.hi y := by
    intro e he
    have := hpre e he
    have := hcut.2.2 e he c (List.mem_cons_self ..)
    omega
  have hhigh : ∀ e ∈ post, s.hi y < s.lo e := by
    intro e he
    have := (List.pairwise_cons.mp hcut.2.1).1 e he
    omega
  have hpoint : i.stop = s.hi y := by rw [hi.1]; rfl
  have hget : (pre ++ c :: post)[pre.length]? = some c := by simp
  rw [hs, hpoint, binarySearchByKey]
  by_cases heq : s.lo c = s.hi y
  · have hidx : ((pre ++ c :: post).map s.lo).findIdx (s.hi y ≤ ·) = pre.length := by
      have hlow' : (pre.map s.lo).findIdx (fun n => decide (s.hi y ≤ n)) =
          (pre.map s.lo).length := by
        rw [List.findIdx_eq_length]
        intro n hn
        obtain ⟨e, he, rfl⟩ := List.mem_map.mp hn
        have := hlow e he
        exact decide_eq_false (by omega)
      rw [List.map_append, List.findIdx_append, hlow', List.map_cons, List.findIdx_cons,
        decide_eq_true (by omega)]
      simp
    have hstart : ((pre ++ c :: post).map s.lo)[pre.length]? = some (s.hi y) := by
      rw [List.getElem?_map, hget, Option.map_some, heq]
    simp only [hidx]
    rw [if_pos hstart]
    simp only [hget]
    exact Returns.ok rfl
  · have hsplit : pre ++ c :: post = (pre ++ [c]) ++ post := by simp
    have hlow' : ∀ e ∈ pre ++ [c], s.lo e < s.hi y := by
      intro e he
      rcases List.mem_append.mp he with he | he
      · exact hlow e he
      · rw [List.mem_singleton.mp he]
        omega
    have hidx : ((pre ++ c :: post).map s.lo).findIdx (s.hi y ≤ ·) = pre.length + 1 := by
      rw [hsplit, findIdx_cut hlow' hhigh]
      simp
    have hstart : ((pre ++ c :: post).map s.lo)[pre.length + 1]? ≠ some (s.hi y) := by
      rw [hsplit, List.getElem?_map]
      have hlen : pre.length + 1 = (pre ++ [c]).length := by simp
      rw [hlen, List.getElem?_append_right le_rfl, Nat.sub_self]
      cases post with
      | nil => simp
      | cons e post =>
        have := hhigh e (by simp)
        simp only [List.getElem?_cons_zero, Option.map_some, ne_eq, Option.some.injEq]
        omega
    simp only [hidx]
    rw [if_neg hstart]
    simp only [Nat.zero_lt_succ, if_true, Nat.add_sub_cancel, hget]
    have hcmem : c ∈ s.nodes := hmem c (by simp)
    refine Returns.bind (expect_spec (fun _ => ⟨c, rfl⟩) fun c' hc' => Option.some.inj hc') ?_
    rintro c' rfl
    refine Returns.bind (isChainAncestorOf_spec (fun _ => hcmem) fun _ => hi.2) fun b hb => ?_
    have hbt : b = true := hb.1.mpr ⟨hlo, hhi⟩
    rw [hbt, if_pos rfl]
    exact Returns.ok rfl

/-- The search in a list whose blocks all lie beside `y` returns the place of `y` among them. -/
theorem binarySearchDescendant_notFound {pre post : List Hash}
    (hl : C → (∀ h ∈ pre ++ post, h ∈ s.nodes) ∧ y ∈ s.nodes)
    (ho : Ordered s (pre ++ post)) (hpre : ∀ e ∈ pre, s.lo e ≤ s.hi e ∧ s.hi e < s.lo y)
    (hpost : ∀ e ∈ post, s.hi y < s.lo e) (hy : s.lo y ≤ s.hi y) :
    Returns C (binarySearchDescendant s (pre ++ post) y)
      (fun r => r = .notFound pre.length ∧ y ∈ s.nodes) := by
  refine Returns.bind (assertHashesOrdered_spec (fun hc => (hl hc).1) ho) fun _ hmem => ?_
  refine Returns.bind (getInterval_spec fun hc => (hl hc).2) fun i hi => ?_
  refine Returns.bind (starts_spec hmem) fun starts hs => ?_
  have hpoint : i.stop = s.hi y := by rw [hi.1]; rfl
  have hlow : ∀ e ∈ pre, s.lo e < s.hi y := by
    intro e he
    have := hpre e he
    omega
  have hidx := findIdx_cut (s := s) hlow hpost
  have hstart : ((pre ++ post).map s.lo)[pre.length]? ≠ some (s.hi y) := by
    rw [List.getElem?_map, List.getElem?_append_right le_rfl, Nat.sub_self]
    cases post with
    | nil => simp
    | cons e post =>
      have := hpost e (by simp)
      simp only [List.getElem?_cons_zero, Option.map_some, ne_eq, Option.some.injEq]
      omega
  rw [hs, hpoint, binarySearchByKey]
  simp only [hidx]
  rw [if_neg hstart]
  simp only
  rcases List.eq_nil_or_concat pre with rfl | ⟨init, c, rfl⟩
  · exact Returns.ok ⟨rfl, hi.2⟩
  · rw [List.concat_eq_append] at *
    have hget : ((init ++ [c]) ++ post)[(init ++ [c]).length - 1]? = some c := by simp
    have hpos : 0 < (init ++ [c]).length := by simp
    rw [if_pos hpos, hget]
    have hcmem : c ∈ s.nodes := hmem c (by simp)
    refine Returns.bind (expect_spec (fun _ => ⟨c, rfl⟩) fun c' hc' => Option.some.inj hc') ?_
    rintro c' rfl
    refine Returns.bind (isChainAncestorOf_spec (fun _ => hcmem) fun _ => hi.2) fun b hb => ?_
    have hbf : b = false := by
      have := hpre c (by simp)
      rw [← Bool.not_eq_true, hb.1]
      omega
    rw [hbf]
    exact Returns.ok ⟨rfl, hi.2⟩

/-- What the search finds is in the list. -/
theorem binarySearchDescendant_mem {l : List Hash} :
    Returns False (binarySearchDescendant s l y) (fun r => ∀ h i, r = .found h i → h ∈ l) := by
  refine ⟨fun r hr h i heq => ?_, False.elim⟩
  subst heq
  rw [binarySearchDescendant] at hr
  obtain ⟨_, _, hr⟩ := bind_eq_ok.mp hr
  obtain ⟨p, _, hr⟩ := bind_eq_ok.mp hr
  obtain ⟨starts, _, hr⟩ := bind_eq_ok.mp hr
  have hexpect : ∀ {j : Nat} {c : Hash}, expect "index out of bounds" l[j]? = .ok c → c ∈ l := by
    intro j c hc
    cases hj : l[j]? with
    | none =>
      rw [hj] at hc
      cases hc
    | some d =>
      rw [hj] at hc
      cases hc
      exact List.mem_of_getElem? hj
  cases hb : binarySearchByKey starts p.stop with
  | ok j =>
    rw [hb] at hr
    obtain ⟨c, hc, hr⟩ := bind_eq_ok.mp hr
    cases hr
    exact hexpect hc
  | error j =>
    rw [hb] at hr
    simp only at hr
    by_cases hj : 0 < j
    · rw [if_pos hj] at hr
      obtain ⟨c, hc, hr⟩ := bind_eq_ok.mp hr
      obtain ⟨b, _, hr⟩ := bind_eq_ok.mp hr
      cases b with
      | true =>
        cases hr
        exact hexpect hc
      | false => cases hr
    · rw [if_neg hj] at hr
      cases hr

theorem getNextChainAncestorUnchecked_mem {ancestor descendant : Hash} :
    Returns False (getNextChainAncestorUnchecked s descendant ancestor)
      (fun h => h ∈ s.kids ancestor) := by
  refine Returns.bind (getChildren_spec False.elim) fun l hl => ?_
  refine Returns.bind binarySearchDescendant_mem fun r hr => ?_
  cases r with
  | found h i =>
    refine Returns.pure ?_
    rw [← hl.1]
    exact hr h i rfl
  | notFound i => exact Returns.error id

/-- The next block on the way from `ancestor` down to `descendant`. -/
theorem getNextChainAncestorUnchecked_spec {pre post : List Hash} {c ancestor descendant : Hash}
    (hl : C → (∀ h ∈ s.kids ancestor, h ∈ s.nodes) ∧ descendant ∈ s.nodes ∧ ancestor ∈ s.nodes)
    (hk : s.kids ancestor = pre ++ c :: post) (ho : Ordered s (s.kids ancestor))
    (hpre : ∀ e ∈ pre, s.lo e ≤ s.hi e) (hlo : s.lo c ≤ s.lo descendant)
    (hhi : s.hi descendant ≤ s.hi c) (hd : s.lo descendant ≤ s.hi descendant) :
    Returns C (getNextChainAncestorUnchecked s descendant ancestor) (fun h => h = c) := by
  refine Returns.bind (getChildren_spec fun hc => (hl hc).2.2) fun l hl' => ?_
  rw [hl'.1, hk]
  rw [hk] at ho hl
  refine Returns.bind (binarySearchDescendant_found (fun hc => ⟨(hl hc).1, (hl hc).2.1⟩) ho hpre
    hlo hhi hd) fun r hr => ?_
  rw [hr]
  exact Returns.pure rfl

end TaoDag.Reachability
