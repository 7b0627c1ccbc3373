import TaoDag.Framework.IntervalLabels

namespace TaoDag.OrderedTree

universe u

variable {α : Type u} [DecidableEq α]

/-- The list with the nodes `cs` in the place of `n`. -/
def splice (cs : List α) (n : α) (l : List α) : List α := l.flatMap fun y => if y = n then cs else [y]

/-- The tree without `n`, whose children take its place. -/
def contract (kids : α → List α) (n : α) : α → List α :=
  fun x => if x = n then [] else splice (kids n) n (kids x)

section Splice

variable {cs l l' pre post : List α} {n y : α}

theorem mem_splice : y ∈ splice cs n l ↔ y ∈ l ∧ y ≠ n ∨ n ∈ l ∧ y ∈ cs := by
  rw [splice, List.mem_flatMap]
  constructor
  · rintro ⟨z, hz, hy⟩
    split_ifs at hy with hzn
    · exact Or.inr ⟨hzn ▸ hz, hy⟩
    · obtain rfl := List.mem_singleton.mp hy
      exact Or.inl ⟨hz, hzn⟩
  · rintro (⟨hy, hyn⟩ | ⟨hn, hy⟩)
    · exact ⟨y, hy, by rw [if_neg hyn]; exact List.mem_singleton_self y⟩
    · exact ⟨n, hn, by rwa [if_pos rfl]⟩

theorem splice_append : splice cs n (l ++ l') = splice cs n l ++ splice cs n l' :=
  List.flatMap_append

theorem splice_of_not_mem (h : n ∉ l) : splice cs n l = l := by
  induction l with
  | nil => rfl
  | cons y l ih =>
    rw [List.mem_cons, not_or] at h
    rw [splice, List.flatMap_cons, if_neg (Ne.symm h.1)]
    exact congrArg (y :: ·) (ih h.2)

/-- The place of `n` in a list without repetition. -/
theorem splice_of_nodup (h : (pre ++ n :: post).Nodup) :
    splice cs n (pre ++ n :: post) = pre ++ (cs ++ post) := by
  have hpre : n ∉ pre := fun hn => (List.nodup_append.mp h).2.2 n hn n List.mem_cons_self rfl
  have hpost : n ∉ post := (List.nodup_cons.mp (List.nodup_append.mp h).2.1).1
  rw [splice_append, splice_of_not_mem hpre]
  rw [splice, List.flatMap_cons, if_pos rfl]
  exact congrArg (fun r => pre ++ (cs ++ r)) (splice_of_not_mem hpost)

theorem sublist_splice (h : l'.Sublist l) : (splice cs n l').Sublist (splice cs n l) := by
  induction h with
  | slnil => exact .slnil
  | cons y _ ih =>
    rw [splice, splice, List.flatMap_cons]
    exact ih.trans (List.sublist_append_right _ _)
  | cons_cons y _ ih =>
    rw [splice, splice, List.flatMap_cons, List.flatMap_cons]
    exact (List.Sublist.refl _).append ih

/-- The nodes spliced in come where `n` came. -/
theorem pairwise_splice {R : α → α → Prop} (h : l.Pairwise R) (hcs : cs.Pairwise R)
    (hbefore : ∀ x, R x n → ∀ c ∈ cs, R x c) (hafter : ∀ x, R n x → ∀ c ∈ cs, R c x)
    (hself : ¬R n n) : (splice cs n l).Pairwise R := by
  induction l with
  | nil => exact List.Pairwise.nil
  | cons y l ih =>
    rw [List.pairwise_cons] at h
    rw [splice, List.flatMap_cons, List.pairwise_append]
    refine ⟨?_, ih h.2, fun a ha b hb => ?_⟩
    · split_ifs
      · exact hcs
      · exact List.pairwise_singleton R y
    · have hb := mem_splice.mp hb
      split_ifs at ha with hyn
      · subst hyn
        rcases hb with ⟨hb, _⟩ | ⟨hn, _⟩
        · exact hafter b (h.1 b hb) a ha
        · exact absurd (h.1 y hn) hself
      · obtain rfl := List.mem_singleton.mp ha
        rcases hb with ⟨hb, _⟩ | ⟨hn, hb⟩
        · exact h.1 b hb
        · exact hbefore a (h.1 n hn) b hb

theorem nodup_splice (h : l.Nodup) (hcs : cs.Nodup) (hdisjoint : ∀ c ∈ cs, c ∉ l) :
    (splice cs n l).Nodup := by
  by_cases hn : n ∈ l
  · obtain ⟨pre, post, rfl⟩ := List.append_of_mem hn
    rw [splice_of_nodup h]
    have hrest : (pre ++ post).Nodup :=
      h.sublist ((List.sublist_cons_self n post).append_left pre)
    rw [List.nodup_append] at hrest
    refine List.nodup_append.mpr ⟨hrest.1, List.nodup_append.mpr ⟨hcs, hrest.2.1, ?_⟩, ?_⟩
    · rintro c hc y hy rfl
      exact hdisjoint c hc (by simp [hy])
    · rintro y hy z hz rfl
      rcases List.mem_append.mp hz with hc | hz
      · exact hdisjoint y hc (by simp [hy])
      · exact hrest.2.2 y hy y hz rfl
  · rw [splice_of_not_mem hn]
    exact h

end Splice

section Contract

variable {kids : α → List α} {V : Finset α} {root n p a b x y : α} {depth : α → Nat}

theorem contract_self : contract kids n n = [] := if_pos rfl

theorem contract_of_ne (h : x ≠ n) : contract kids n x = splice (kids n) n (kids x) := if_neg h

theorem mem_contract :
    y ∈ contract kids n x ↔ x ≠ n ∧ (y ∈ kids x ∧ y ≠ n ∨ n ∈ kids x ∧ y ∈ kids n) := by
  by_cases hx : x = n
  · subst hx
    simp [contract_self]
  · rw [contract_of_ne hx, mem_splice]
    simp [hx]

theorem desc_of_contract (h : Desc (contract kids n) a b) : Desc kids a b := by
  induction h with
  | refl => exact .refl
  | tail _ hb ih =>
    obtain ⟨_, ⟨hb, _⟩ | ⟨hn, hb⟩⟩ := mem_contract.mp hb
    · exact ih.trans (.kid hb)
    · exact (ih.trans (.kid hn)).trans (.kid hb)

/-- What was below a node is still below it. -/
theorem Desc.contract (t : IsTree kids V root depth) (h : Desc kids a b) (ha : a ≠ n)
    (hb : b ≠ n) : Desc (contract kids n) a b := by
  suffices hstep : (b ≠ n → Desc (OrderedTree.contract kids n) a b) ∧
      (b = n → ∃ q, q ≠ n ∧ n ∈ kids q ∧ Desc (OrderedTree.contract kids n) a q) from hstep.1 hb
  clear hb
  induction h with
  | refl => exact ⟨fun _ => .refl, fun h => absurd h ha⟩
  | @tail q b _ hbq ih =>
    by_cases hq : q = n
    · subst hq
      obtain ⟨w, hw, hqw, hd⟩ := ih.2 rfl
      have hbq' : b ≠ q := by
        rintro rfl
        exact t.not_desc_of_kid hbq .refl
      exact ⟨fun _ => hd.trans (.kid (mem_contract.mpr ⟨hw, Or.inr ⟨hqw, hbq⟩⟩)),
        fun h => absurd h hbq'⟩
    · refine ⟨fun hbn => ?_, ?_⟩
      · exact (ih.1 hq).trans (.kid (mem_contract.mpr ⟨hq, Or.inl ⟨hbq, hbn⟩⟩))
      · rintro rfl
        exact ⟨q, hq, hbq, ih.1 hq⟩

theorem desc_contract_iff (t : IsTree kids V root depth) (ha : a ≠ n) (hb : b ≠ n) :
    Desc (contract kids n) a b ↔ Desc kids a b :=
  ⟨desc_of_contract, fun h => h.contract t ha hb⟩

theorem Before.contract (t : IsTree kids V root depth) (hn : n ≠ root) (h : Before kids a b)
    (ha : a ≠ n) (hb : b ≠ n) : Before (contract kids n) a b := by
  obtain ⟨w, u, v, huv, hu, hv⟩ := h
  have huw : u ∈ kids w := huv.subset (by simp)
  have hvw : v ∈ kids w := huv.subset (by simp)
  have hne : u ≠ v := by
    rintro rfl
    exact (List.nodup_cons.mp ((t.nodup w).sublist huv)).1 (by simp)
  by_cases hw : w = n
  · -- two children of `n` have moved to its parent
    subst hw
    obtain ⟨q, _, hq⟩ := t.exists_parent (t.mem_of_kid huw) hn
    have hqw : q ≠ w := by
      rintro rfl
      exact t.not_desc_of_kid hq .refl
    have huw' : u ≠ w := by
      rintro rfl
      exact t.not_desc_of_kid huw .refl
    have hvw' : v ≠ w := by
      rintro rfl
      exact t.not_desc_of_kid hvw .refl
    refine ⟨q, u, v, ?_, hu.contract t huw' ha, hv.contract t hvw' hb⟩
    obtain ⟨pre, post, hsplit⟩ := List.append_of_mem hq
    rw [contract_of_ne hqw, hsplit, splice_of_nodup (hsplit ▸ t.nodup q)]
    exact huv.trans ((List.sublist_append_left _ _).trans (List.sublist_append_right _ _))
  · have hsub : (splice (kids n) n [u, v]).Sublist (splice (kids n) n (kids w)) :=
      sublist_splice huv
    rw [← contract_of_ne hw] at hsub
    by_cases hun : u = n
    · subst hun
      obtain ⟨c, hc, hca⟩ := (desc_iff_kid ha).mp hu
      have hcu : c ≠ u := by
        rintro rfl
        exact t.not_desc_of_kid hc .refl
      refine ⟨w, c, v, ?_, hca.contract t hcu ha, hv.contract t (Ne.symm hne) hb⟩
      refine List.Sublist.trans ?_ hsub
      rw [splice, List.flatMap_cons, if_pos rfl, List.flatMap_singleton, if_neg (Ne.symm hne)]
      exact (List.singleton_sublist.mpr hc).append (List.Sublist.refl [v])
    · by_cases hvn : v = n
      · subst hvn
        obtain ⟨c, hc, hcb⟩ := (desc_iff_kid hb).mp hv
        have hcv : c ≠ v := by
          rintro rfl
          exact t.not_desc_of_kid hc .refl
        refine ⟨w, u, c, ?_, hu.contract t hun ha, hcb.contract t hcv hb⟩
        refine List.Sublist.trans ?_ hsub
        rw [splice, List.flatMap_cons, if_neg hun, List.flatMap_singleton, if_pos rfl]
        exact (List.singleton_sublist.mpr hc).cons_cons u
      · refine ⟨w, u, v, ?_, hu.contract t hun ha, hv.contract t hvn hb⟩
        refine List.Sublist.trans ?_ hsub
        rw [splice, List.flatMap_cons, if_neg hun, List.flatMap_singleton, if_neg hvn]
        exact List.Sublist.refl _

open Classical in
/-- The depths without `n`: what was below it has moved up. -/
noncomputable def contractDepth (kids : α → List α) (depth : α → Nat) (n : α) : α → Nat :=
  fun x => if Desc kids n x then depth x - 1 else depth x

/-- A tree without a node that is not its root is a tree. -/
theorem IsTree.contract (t : IsTree kids V root depth) (hn : n ≠ root) :
    IsTree (contract kids n) (V.erase n) root (contractDepth kids depth n) where
  root_mem := Finset.mem_erase.mpr ⟨Ne.symm hn, t.root_mem⟩
  closed := by
    intro x y hy
    obtain ⟨hx, ⟨hy, hyn⟩ | ⟨_, hy⟩⟩ := mem_contract.mp hy
    · exact Finset.mem_erase.mpr ⟨hyn, t.closed hy⟩
    · refine Finset.mem_erase.mpr ⟨?_, t.closed hy⟩
      rintro rfl
      exact t.not_desc_of_kid hy .refl
  outside := by
    intro x hx
    by_cases hxn : x = n
    · rw [hxn, contract_self]
    · have hxV : x ∉ V := fun h => hx (Finset.mem_erase.mpr ⟨hxn, h⟩)
      rw [contract_of_ne hxn, t.outside hxV]
      rfl
  nodup := by
    intro x
    by_cases hxn : x = n
    · rw [hxn, contract_self]
      exact List.nodup_nil
    · rw [contract_of_ne hxn]
      exact nodup_splice (t.nodup x) (t.nodup n) fun c hc hcx => hxn (t.unique hcx hc)
  unique := by
    intro x x' y hy hy'
    obtain ⟨hx, ⟨hy, _⟩ | ⟨hnx, hy⟩⟩ := mem_contract.mp hy
    · obtain ⟨hx', ⟨hy', _⟩ | ⟨_, hy'⟩⟩ := mem_contract.mp hy'
      · exact t.unique hy hy'
      · exact absurd (t.unique hy hy') hx
    · obtain ⟨hx', ⟨hy', _⟩ | ⟨hnx', _⟩⟩ := mem_contract.mp hy'
      · exact absurd (t.unique hy' hy) hx'
      · exact t.unique hnx hnx'
  depth_succ := by
    intro x y hy
    obtain ⟨hxn, ⟨hy, hyn⟩ | ⟨hnx, hy⟩⟩ := mem_contract.mp hy
    · have hsucc := t.depth_succ hy
      have hiff : Desc kids n y ↔ Desc kids n x :=
        ⟨fun h => t.desc_parent hy h (Ne.symm hyn), fun h => h.trans (.kid hy)⟩
      rw [contractDepth, contractDepth]
      by_cases hbelow : Desc kids n x
      · rw [if_pos (hiff.mpr hbelow), if_pos hbelow]
        rcases t.eq_or_depth_lt hbelow with heq | hlt
        · exact absurd heq (Ne.symm hxn)
        · omega
      · rw [if_neg (mt hiff.mp hbelow), if_neg hbelow]
        exact hsucc
    · have hsucc := t.depth_succ hy
      have hsucc' := t.depth_succ hnx
      have hbelow : Desc kids n y := .kid hy
      have habove : ¬Desc kids n x := t.not_desc_of_kid hnx
      rw [contractDepth, contractDepth, if_pos hbelow, if_neg habove]
      omega
  reach := by
    intro x hx
    obtain ⟨hxn, hxV⟩ := Finset.mem_erase.mp hx
    exact (t.reach hxV).contract t (Ne.symm hn) hxn

end Contract

section Labels

variable {lo hi lo' hi' : α → Nat} {kids : α → List α} {V : Finset α} {root n p x : α}
  {depth : α → Nat} {a b l r : Nat} {c : α} {cs xs pre post : List α}

/-- The first of the packed nodes grows down to `l`, the last one up to `r`. -/
theorem Packed.widen (h : Packed lo hi a (c :: cs) b) (hnodup : (c :: cs).Nodup) (hl : l ≤ lo c)
    (hr : b ≤ r + 1) (hlo : lo' c = l) (hlos : ∀ x ∈ cs, lo' x = lo x)
    (hhi : ∀ x ∈ c :: cs, hi' x = if (c :: cs).getLast? = some x then r else hi x) :
    Packed lo' hi' l (c :: cs) (r + 1) := by
  induction cs generalizing a c l with
  | nil =>
    have hend := h.2.2
    have hlast := hhi c List.mem_cons_self
    have hle := h.2.1
    rw [Packed] at hend
    rw [List.getLast?_singleton, if_pos rfl] at hlast
    refine ⟨hlo, by omega, ?_⟩
    rw [Packed, hlast]
  | cons d cs ih =>
    rw [List.nodup_cons] at hnodup
    have hfirst := hhi c List.mem_cons_self
    have hnotlast : (c :: d :: cs).getLast? ≠ some c := by
      intro hlast
      rw [List.getLast?_cons_cons] at hlast
      exact hnodup.1 (List.mem_of_getLast? hlast)
    rw [if_neg hnotlast] at hfirst
    have hle := h.2.1
    refine ⟨hlo, by omega, ?_⟩
    have hd := h.2.2.1
    rw [hfirst]
    refine ih h.2.2 hnodup.2 (Nat.le_of_eq hd.symm) (by rw [hlos d List.mem_cons_self, hd]) ?_ ?_
    · exact fun x hx => hlos x (List.mem_cons_of_mem d hx)
    · intro x hx
      rw [hhi x (List.mem_cons_of_mem c hx), List.getLast?_cons_cons]

/-- The labels without `n`, whose parent has the children `pre` before it: its children `cs`, or
its elder sibling when it has none, take over its labels. -/
structure Widened (lo hi lo' hi' : α → Nat) (pre cs : List α) (n : α) : Prop where
  lo : ∀ x, x ≠ n → lo' x = if cs.head? = some x then lo n else lo x
  hi : ∀ x, x ≠ n → hi' x = if (pre ++ cs).getLast? = some x then hi n else hi x

/-- The children of the parent of `n`, with those of `n` among them, are packed. -/
theorem Packed.contract (h : Packed lo hi a (pre ++ n :: post) b)
    (hn : Nested lo hi kids n) (hpacked : ∃ a b, Packed lo hi a (kids n) b)
    (hnodup : (pre ++ n :: post).Nodup) (hkids : (kids n).Nodup)
    (hdisjoint : ∀ c ∈ kids n, c ∉ pre ++ n :: post)
    (hw : Widened lo hi lo' hi' pre (kids n) n) :
    ∃ a', a ≤ a' ∧ Packed lo' hi' a' (pre ++ (kids n ++ post)) b := by
  obtain ⟨m, hpre, hm, hle, hpost⟩ := packed_append.mp h
  have hsibling : ∀ x ∈ pre ++ post, x ≠ n ∧ x ∉ kids n := by
    intro x hx
    have hmem : x ∈ pre ++ n :: post :=
      ((List.sublist_cons_self n post).append_left pre).subset hx
    refine ⟨?_, fun hxn => hdisjoint x hxn hmem⟩
    rintro rfl
    have hrest := List.nodup_middle.mp hnodup
    exact (List.nodup_cons.mp hrest).1 hx
  have hlo : ∀ x ∈ pre ++ post, lo' x = lo x := by
    intro x hx
    obtain ⟨hxn, hxkids⟩ := hsibling x hx
    rw [hw.lo x hxn, if_neg fun hhead => hxkids (List.mem_of_head? hhead)]
  cases hcs : kids n with
  | cons c cs =>
    rw [hcs] at hw hpacked hkids hsibling
    rw [Nested, hcs] at hn
    obtain ⟨a₁, b₁, hpacked⟩ := hpacked
    obtain ⟨hl, hr⟩ := hpacked.bounds hn (by simp)
    have hlast : ∀ x, (pre ++ c :: cs).getLast? = some x ↔ (c :: cs).getLast? = some x := by
      intro x
      rw [List.getLast?_append_cons]
    have hhi : ∀ x ∈ pre ++ post, hi' x = hi x := by
      intro x hx
      obtain ⟨hxn, hxkids⟩ := hsibling x hx
      rw [hw.hi x hxn, if_neg]
      rw [hlast]
      exact fun hlast => hxkids (List.mem_of_getLast? hlast)
    have hne : ∀ x ∈ c :: cs, x ≠ n := by
      rintro x hx rfl
      exact hdisjoint x (hcs ▸ hx) (by simp)
    have hmoved : Packed lo' hi' (lo n) (c :: cs) (hi n + 1) := by
      refine hpacked.widen hkids (hpacked.1.symm ▸ hl) (by omega) ?_ ?_ ?_
      · rw [hw.lo c (hne c List.mem_cons_self), List.head?_cons, if_pos rfl]
      · intro x hx
        rw [hw.lo x (hne x (List.mem_cons_of_mem c hx)), List.head?_cons, if_neg]
        intro hcx
        obtain rfl := Option.some.inj hcx
        exact (List.nodup_cons.mp hkids).1 hx
      · intro x hx
        rw [hw.hi x (hne x hx)]
        simp only [hlast]
    refine ⟨a, le_rfl, packed_append.mpr ⟨m, ?_, packed_append.mpr ⟨hi n + 1, hm ▸ hmoved, ?_⟩⟩⟩
    · exact hpre.congr (fun x hx => hlo x (by simp [hx])) fun x hx => hhi x (by simp [hx])
    · exact hpost.congr (fun x hx => hlo x (by simp [hx])) fun x hx => hhi x (by simp [hx])
  | nil =>
    rw [hcs] at hw
    rw [List.nil_append]
    rcases pre.eq_nil_or_concat' with rfl | ⟨qs, q, rfl⟩
    · -- the labels of `n` are lost
      refine ⟨hi n + 1, ?_, ?_⟩
      · rw [Packed] at hpre
        omega
      · refine hpost.congr (fun x hx => hlo x (by simp [hx])) fun x hx => ?_
        rw [hw.hi x (hsibling x (by simp [hx])).1]
        simp
    · -- the elder sibling takes them
      have hhi : ∀ x, x ≠ n → hi' x = if q = x then hi n else hi x := by
        intro x hx
        rw [hw.hi x hx]
        simp
      rw [List.append_assoc, List.singleton_append] at hnodup
      have hqs : q ∉ qs ∧ q ∉ post := by
        have hrest := (List.nodup_cons.mp (List.nodup_middle.mp hnodup)).1
        rw [List.mem_append, List.mem_cons, not_or, not_or] at hrest
        exact ⟨hrest.1, hrest.2.2⟩
      have hkeep : ∀ x ∈ qs ++ post, lo' x = lo x ∧ hi' x = hi x := by
        intro x hx
        have hxq : x ∈ (qs ++ [q]) ++ post :=
          ((List.sublist_append_left qs [q]).append (List.Sublist.refl post)).subset hx
        refine ⟨hlo x hxq, ?_⟩
        rw [hhi x (hsibling x hxq).1, if_neg]
        rintro rfl
        rcases List.mem_append.mp hx with hx | hx
        · exact hqs.1 hx
        · exact hqs.2 hx
      obtain ⟨m₁, hfirst, hq, hqle, hqm⟩ := packed_append.mp hpre
      rw [Packed] at hqm
      have hqmem : q ∈ (qs ++ [q]) ++ post := by simp
      have hlast : hi' q = hi n := by rw [hhi q (hsibling q hqmem).1, if_pos rfl]
      have hstart : lo' q = lo q := hlo q hqmem
      refine ⟨a, le_rfl, packed_append.mpr ⟨hi n + 1, packed_append.mpr ⟨m₁, ?_, ?_⟩, ?_⟩⟩
      · exact hfirst.congr (fun x hx => (hkeep x (by simp [hx])).1) fun x hx =>
          (hkeep x (by simp [hx])).2
      · refine ⟨hstart.trans hq, ?_, ?_⟩
        · omega
        · rw [Packed, hlast]
      · exact hpost.congr (fun x hx => (hkeep x (by simp [hx])).1) fun x hx =>
          (hkeep x (by simp [hx])).2

/-- Without `n`, no label shrinks. -/
theorem Widened.grows (hw : Widened lo hi lo' hi' pre (kids n) n) (hp : kids p = pre ++ n :: post)
    (hparent : Nested lo hi kids p) (hn : Nested lo hi kids n) (hx : x ≠ n) :
    lo' x ≤ lo x ∧ hi x ≤ hi' x := by
  have hlabel := hn.le
  rw [hw.lo x hx, hw.hi x hx]
  constructor
  · split_ifs with hhead
    · exact (hn.kid (List.mem_of_head? hhead)).1
    · exact le_rfl
  · split_ifs with hlast
    · rcases List.mem_append.mp (List.mem_of_getLast? hlast) with hpre | hkid
      · have hpair : [x, n].Sublist (kids p) := by
          rw [hp]
          exact (List.singleton_sublist.mpr hpre).append
            (List.singleton_sublist.mpr List.mem_cons_self)
        have hbefore := Stacked.lt_of_pair hparent hpair
        omega
      · exact (hn.kid hkid).2.2.le
    · exact le_rfl

/-- The tree without `n` is laid out when the labels of `n` are taken over. -/
theorem laidOut_contract (t : IsTree kids V root depth)
    (hlab : ∀ z ∈ V, Nested lo hi kids z ∧ ∃ a b, Packed lo hi a (kids z) b)
    (hp : kids p = pre ++ n :: post) (hw : Widened lo hi lo' hi' pre (kids n) n) {z : α}
    (hz : z ∈ V) (hzn : z ≠ n) : Nested lo' hi' (contract kids n) z ∧
      ∃ a b, Packed lo' hi' a (contract kids n z) b := by
  have hnp : n ∈ kids p := by
    rw [hp]
    simp
  obtain ⟨hparent, aₚ, bₚ, hpackedₚ⟩ := hlab p (t.mem_of_kid hnp)
  obtain ⟨hnested, hpacked⟩ := hlab n (t.closed hnp)
  obtain ⟨hstart, hend⟩ := hw.grows hp hparent hnested hzn
  by_cases hzp : z = p
  · subst hzp
    obtain ⟨hl, hr⟩ := hpackedₚ.bounds hparent (List.ne_nil_of_mem hnp)
    have hnodup := t.nodup z
    rw [hp] at hpackedₚ hnodup
    have hdisjoint : ∀ c ∈ kids n, c ∉ pre ++ n :: post := by
      rw [← hp]
      exact fun c hc hcz => hzn (t.unique hcz hc)
    obtain ⟨a, ha, h⟩ := hpackedₚ.contract hnested hpacked hnodup (t.nodup n) hdisjoint hw
    have hkids : contract kids n z = pre ++ (kids n ++ post) := by
      rw [contract_of_ne hzn, hp, splice_of_nodup hnodup]
    rw [Nested, hkids]
    exact ⟨h.stacked.mono (by omega) (by omega), a, bₚ, h⟩
  · have hnz : n ∉ kids z := fun h => hzp (t.unique h hnp)
    have hkids : contract kids n z = kids z := by
      rw [contract_of_ne hzn, splice_of_not_mem hnz]
    have hkeep : ∀ y ∈ kids z, lo' y = lo y ∧ hi' y = hi y := by
      intro y hy
      have hyn : y ≠ n := fun h => hnz (h ▸ hy)
      have hykids : y ∉ kids n := fun h => hzn (t.unique hy h)
      have hypre : y ∉ pre := by
        intro h
        refine hzp (t.unique hy ?_)
        rw [hp]
        exact List.mem_append_left _ h
      rw [hw.lo y hyn, hw.hi y hyn]
      refine ⟨if_neg fun hhead => hykids (List.mem_of_head? hhead), if_neg fun hlast => ?_⟩
      rcases List.mem_append.mp (List.mem_of_getLast? hlast) with h | h
      · exact hypre h
      · exact hykids h
    obtain ⟨hz', a, b, h⟩ := hlab z hz
    rw [Nested, hkids]
    exact ⟨hz'.widen hstart hend hkeep, a, b,
      h.congr (fun y hy => (hkeep y hy).1) fun y hy => (hkeep y hy).2⟩

end Labels

end TaoDag.OrderedTree
