import Mathlib.Data.Finset.Max
import TaoDag.Reachability.Reindex
import TaoDag.Reachability.Shape

namespace TaoDag.Reachability

open MemoryReachabilityStore OrderedTree

variable {o : Hash} {depth : Hash → Nat}

/-- The links of a store: the blocks form an ordered tree below `o`, and every child points back
at its parent. -/
structure Linked (o : Hash) (depth : Hash → Nat) (s : Store) : Prop where
  tree : IsTree s.kids s.nodes o depth
  par : ∀ {x y}, y ∈ s.kids x → s.par y = x

/-- The tree links of a store: the blocks form an ordered tree below `o`, with the parent
and height fields in step. -/
structure TreeInv (o : Hash) (s : Store) : Prop where
  tree : IsTree s.kids s.nodes o s.depth
  par : ∀ {x y}, y ∈ s.kids x → s.par y = x
  par_root : s.par o = blockhash.none

theorem TreeInv.linked {s : Store} (t : TreeInv o s) : Linked o s.depth s := ⟨t.tree, t.par⟩

theorem TreeInv.of_sameShape {s s' : Store} (t : TreeInv o s) (h : SameShape s s') : TreeInv o s' where
  tree := by
    rw [h.kids, h.nodes, h.depth]
    exact t.tree
  par := by
    rw [h.kids, h.par]
    exact t.par
  par_root := by
    rw [h.par]
    exact t.par_root

/-- The number of blocks in the subtree of `x`. -/
noncomputable def treeSize (s : Store) (x : Hash) : Nat := size s.kids s.nodes x

theorem treeSize_of_sameShape {s s' : Store} (h : SameShape s s') :
    treeSize s' = treeSize s := by
  funext x
  rw [treeSize, h.kids, h.nodes]
  rfl

theorem treeSize_le_count (s : Store) (x : Hash) : treeSize s x ≤ s.count := by
  rw [← card_nodes]
  exact size_le_card x

theorem Linked.treeSize_eq {s : Store} (t : Linked o depth s) {x : Hash} (hx : x ∈ s.nodes) :
    treeSize s x = ((s.kids x).map (treeSize s)).sum + 1 := size_eq t.tree hx

theorem TreeInv.treeSize_eq {s : Store} (t : TreeInv o s) {x : Hash} (hx : x ∈ s.nodes) :
    treeSize s x = ((s.kids x).map (treeSize s)).sum + 1 := t.linked.treeSize_eq hx

theorem TreeInv.mem_par {s : Store} (t : TreeInv o s) {x : Hash} (hx : x ∈ s.nodes)
    (hne : x ≠ o) : x ∈ s.kids (s.par x) := by
  obtain ⟨p, _, hp⟩ := t.tree.exists_parent hx hne
  rwa [t.par hp]

theorem Linked.length_kids_le {s : Store} (t : Linked o depth s) (x : Hash) :
    (s.kids x).length ≤ s.count := by
  rw [← card_nodes, ← List.toFinset_card_of_nodup (t.tree.nodup x)]
  refine Finset.card_le_card fun y hy => ?_
  exact t.tree.closed (List.mem_toFinset.mp hy)

/-- A block below another one than itself is a child of its parent. -/
theorem Linked.kid_par {s : Store} (t : Linked o depth s) {block x : Hash}
    (h : Desc s.kids block x) (hne : x ≠ block) :
    x ∈ s.kids (s.par x) := by
  rcases desc_iff_tail.mp h with rfl | ⟨p, _, hp⟩
  · exact absurd rfl hne
  · rwa [t.par hp]

/-- The cached sizes are right, and where `K` holds a block is cached with its subtree. -/
structure Sized (K : Prop) (s : Store) (cache : BlockHashMap Nat) : Prop where
  exact : ∀ {x n}, cache.lookup x = some n → n = treeSize s x
  closed : K → ∀ {x c}, x ∈ cache → c ∈ s.kids x → c ∈ cache

theorem Sized.insert {K : Prop} {s : Store} {cache : BlockHashMap Nat} (h : Sized K s cache)
    {x : Hash} (hk : ∀ c ∈ s.kids x, c ∈ cache) : Sized K s (cache.insert x (treeSize s x)) where
  exact := by
    intro y n hl
    by_cases hy : y = x
    · subst hy
      rw [AList.lookup_insert] at hl
      exact (Option.some.inj hl).symm
    · rw [AList.lookup_insert_ne hy] at hl
      exact h.exact hl
  closed := by
    intro hK y c hy hc
    rw [AList.mem_insert] at hy ⊢
    rcases hy with rfl | hy
    · exact Or.inr (hk c hc)
    · exact Or.inr (h.closed hK hy hc)

/-- The cached sizes are right, and with a block its subtree is cached. -/
structure Cached (s : Store) (cache : BlockHashMap Nat) : Prop where
  exact : ∀ {x n}, cache.lookup x = some n → n = treeSize s x
  closed : ∀ {x c}, x ∈ cache → c ∈ s.kids x → c ∈ cache

theorem Cached.sized {s : Store} {cache : BlockHashMap Nat} (h : Cached s cache) :
    Sized True s cache := ⟨h.exact, fun _ => h.closed⟩

theorem Sized.cached {s : Store} {cache : BlockHashMap Nat} (h : Sized True s cache) :
    Cached s cache := ⟨h.exact, h.closed trivial⟩

theorem Cached.empty (s : Store) : Cached s ∅ where
  exact := by
    intro x n h
    rw [AList.lookup_empty] at h
    cases h
  closed := fun h => absurd h (AList.notMem_empty _)

theorem Cached.of_sameShape {s s' : Store} {cache : BlockHashMap Nat} (h : Cached s cache)
    (hs : SameShape s s') : Cached s' cache where
  exact := fun hl => by
    rw [treeSize_of_sameShape hs]
    exact h.exact hl
  closed := fun hx hc => h.closed hx (by rwa [← hs.kids])

namespace ReindexOperationContext

variable {C K : Prop}

theorem subtreeSize_spec {ctx : ReindexOperationContext} (h : Sized K ctx.store ctx.subtreeSizes)
    {x : Hash} (hx : C → x ∈ ctx.subtreeSizes) :
    Returns C (ctx.subtreeSize x)
      (fun n => n = treeSize ctx.store x ∧ x ∈ ctx.subtreeSizes) := by
  refine expect_spec (fun hc => ?_) fun n hn => ⟨h.exact hn, ?_⟩
  · exact Option.isSome_iff_exists.mp (AList.lookup_isSome.mpr (hx hc))
  · exact AList.lookup_isSome.mp (by rw [hn]; rfl)

theorem subtreeSizes_spec {ctx : ReindexOperationContext} (h : Sized K ctx.store ctx.subtreeSizes)
    {l : List Hash} (hl : C → ∀ x ∈ l, x ∈ ctx.subtreeSizes) :
    Returns C (l.mapM ctx.subtreeSize) (fun sizes => sizes = l.map (treeSize ctx.store) ∧
      ∀ x ∈ l, x ∈ ctx.subtreeSizes) :=
  Returns.mapM fun x hx => subtreeSize_spec h fun hc => hl hc x hx

/-- The search of `count_subtrees` for `block`: what is queued, what is `opened` and waits for
children, and what is `done`. -/
structure Searching (s : Store) (block : Hash) (cache : BlockHashMap Nat) (queue : List Hash)
    (opened done : Finset Hash) : Prop where
  nodup : queue.Nodup
  apart : ∀ x ∈ queue, x ∉ opened ∧ x ∉ done
  disjoint : ∀ x ∈ opened, x ∉ done
  start : block ∈ queue ∨ block ∈ opened ∨ block ∈ done
  below : ∀ x, x ∈ queue ∨ x ∈ opened ∨ x ∈ done → Desc s.kids block x
  waits : ∀ x ∈ opened, ∀ c ∈ s.kids x, c ∈ queue ∨ c ∈ opened ∨ c ∈ done
  up : ∀ x, x ∈ queue ∨ x ∈ opened → x ≠ block → s.par x ∈ opened
  upDone : ∀ x ∈ done, x ≠ block → s.par x ∈ opened ∨ s.par x ∈ cache
  cached : ∀ x ∈ done, x ∈ cache

/-- The counts of the search: an opened block counts its children that are done, and some child
is not. -/
structure Tallied (s : Store) (cache counts : BlockHashMap Nat) (opened done : Finset Hash) :
    Prop where
  counted : ∀ x ∈ opened, (counts.lookup x).getD 0 = ((s.kids x).filter (· ∈ done)).length ∧
    ((s.kids x).filter (· ∈ done)).length < (s.kids x).length
  fresh : ∀ x, x ∉ opened → x ∉ cache → counts.lookup x = none

variable {s : Store} {block x p : Hash} {cache counts : BlockHashMap Nat} {queue : List Hash}
  {opened done : Finset Hash}

theorem Searching.init : Searching s block cache [block] ∅ ∅ where
  nodup := List.nodup_singleton block
  apart := by simp
  disjoint := by simp
  start := by simp
  below := by
    intro x hx
    have hxb : x = block := by simpa using hx
    subst hxb
    exact .refl
  waits := by simp
  up := by
    intro x hx hne
    have hxb : x = block := by simpa using hx
    exact absurd hxb hne
  upDone := by simp
  cached := by simp

theorem Tallied.init : Tallied s cache ∅ ∅ ∅ where
  counted := by simp
  fresh := fun _ _ _ => AList.lookup_empty _

/-- A finished search has reached its block. -/
theorem Searching.block_done (t : Linked o depth s) (h : Searching s block cache [] opened done)
    (ht : Tallied s cache counts opened done) : block ∈ done := by
  rcases h.start with hq | ho | hd
  · cases hq
  · exfalso
    -- The deepest opened block waits for a child, which is opened as well.
    obtain ⟨x, hx, hmax⟩ := opened.exists_max_image depth ⟨block, ho⟩
    have hlt := (ht.counted x hx).2
    have hex : ∃ c ∈ s.kids x, c ∉ done := by
      by_contra hall
      have hself : (s.kids x).filter (· ∈ done) = s.kids x := by
        refine List.filter_eq_self.mpr fun c hc => ?_
        by_contra hcd
        exact hall ⟨c, hc, by simpa using hcd⟩
      rw [hself] at hlt
      omega
    obtain ⟨c, hc, hcd⟩ := hex
    have hco : c ∈ opened := by
      rcases h.waits x hx c hc with hq | ho | hd
      · cases hq
      · exact ho
      · exact absurd hd hcd
    have := hmax c hco
    have := t.tree.depth_succ hc
    omega
  · exact hd

theorem Searching.card_le (t : Linked o depth s) (h : Searching s block cache queue opened done)
    (hb : block ∈ s.nodes) : opened.card + done.card ≤ s.count := by
  have hdisj : Disjoint opened done := Finset.disjoint_left.mpr h.disjoint
  rw [← Finset.card_union_of_disjoint hdisj, ← card_nodes]
  refine Finset.card_le_card fun x hx => ?_
  have hx' : x ∈ queue ∨ x ∈ opened ∨ x ∈ done := Or.inr (Finset.mem_union.mp hx)
  exact t.tree.mem_desc (h.below x hx') hb

/-- The children of an uncached block in the queue have not been met: one that is met has its
parent opened or cached. -/
theorem Searching.kids_new (t : Linked o depth s) (h : Searching s block cache (x :: queue) opened done)
    (hx : x ∉ cache) {c : Hash} (hc : c ∈ s.kids x) :
    c ∉ x :: queue ∧ c ∉ opened ∧ c ∉ done := by
  have hxo := (h.apart x (List.mem_cons_self ..)).1
  have hbx := h.below x (Or.inl (List.mem_cons_self ..))
  have hcb : c ≠ block := by
    rintro rfl
    exact t.tree.not_desc_of_kid hc hbx
  have hpar := t.par hc
  refine ⟨fun hq => ?_, fun ho => ?_, fun hd => ?_⟩
  · exact hxo (hpar ▸ h.up c (Or.inl hq) hcb)
  · exact hxo (hpar ▸ h.up c (Or.inr ho) hcb)
  · rcases h.upDone c hd hcb with ho | hcache
    · exact hxo (hpar ▸ ho)
    · exact hx (hpar ▸ hcache)

/-- Expanding a queued block: its children are queued, and it waits for them. -/
theorem Searching.expand (t : Linked o depth s) (h : Searching s block cache (x :: queue) opened done)
    (hx : x ∉ cache) :
    Searching s block cache (queue ++ s.kids x) (insert x opened) done := by
  have hxq : x ∉ queue := (List.nodup_cons.mp h.nodup).1
  have hxo := h.apart x (List.mem_cons_self ..)
  have hbx := h.below x (Or.inl (List.mem_cons_self ..))
  have hnew : ∀ c ∈ s.kids x, c ∉ x :: queue ∧ c ∉ opened ∧ c ∉ done :=
    fun c hc => h.kids_new t hx hc
  constructor
  · refine List.nodup_append.mpr ⟨(List.nodup_cons.mp h.nodup).2, t.tree.nodup x, ?_⟩
    rintro a ha b hb rfl
    exact (hnew a hb).1 (List.mem_cons_of_mem _ ha)
  · intro y hy
    rw [Finset.mem_insert, not_or]
    rcases List.mem_append.mp hy with hyq | hyk
    · have hya := h.apart y (List.mem_cons_of_mem _ hyq)
      refine ⟨⟨?_, hya.1⟩, hya.2⟩
      rintro rfl
      exact hxq hyq
    · have hyn := hnew y hyk
      refine ⟨⟨?_, hyn.2.1⟩, hyn.2.2⟩
      rintro rfl
      exact hyn.1 (List.mem_cons_self ..)
  · intro y hy
    rcases Finset.mem_insert.mp hy with rfl | hy
    · exact hxo.2
    · exact h.disjoint y hy
  · rcases h.start with hq | ho | hd
    · rcases List.mem_cons.mp hq with rfl | hq
      · exact Or.inr (Or.inl (Finset.mem_insert_self _ _))
      · exact Or.inl (List.mem_append_left _ hq)
    · exact Or.inr (Or.inl (Finset.mem_insert_of_mem ho))
    · exact Or.inr (Or.inr hd)
  · intro y hy
    rcases hy with hy | hy | hy
    · rcases List.mem_append.mp hy with hy | hy
      · exact h.below y (Or.inl (List.mem_cons_of_mem _ hy))
      · exact hbx.trans (.kid hy)
    · rcases Finset.mem_insert.mp hy with rfl | hy
      · exact hbx
      · exact h.below y (Or.inr (Or.inl hy))
    · exact h.below y (Or.inr (Or.inr hy))
  · intro y hy c hc
    rcases Finset.mem_insert.mp hy with rfl | hy
    · exact Or.inl (List.mem_append_right _ hc)
    · rcases h.waits y hy c hc with hq | ho | hd
      · rcases List.mem_cons.mp hq with rfl | hq
        · exact Or.inr (Or.inl (Finset.mem_insert_self _ _))
        · exact Or.inl (List.mem_append_left _ hq)
      · exact Or.inr (Or.inl (Finset.mem_insert_of_mem ho))
      · exact Or.inr (Or.inr hd)
  · intro y hy hne
    rcases hy with hy | hy
    · rcases List.mem_append.mp hy with hy | hy
      · exact Finset.mem_insert_of_mem (h.up y (Or.inl (List.mem_cons_of_mem _ hy)) hne)
      · rw [t.par hy]
        exact Finset.mem_insert_self _ _
    · rcases Finset.mem_insert.mp hy with rfl | hy
      · exact Finset.mem_insert_of_mem (h.up y (Or.inl (List.mem_cons_self ..)) hne)
      · exact Finset.mem_insert_of_mem (h.up y (Or.inr hy) hne)
  · intro y hy hne
    rcases h.upDone y hy hne with ho | hd
    · exact Or.inl (Finset.mem_insert_of_mem ho)
    · exact Or.inr hd
  · exact h.cached

theorem Tallied.expand (ht : Tallied s cache counts opened done) (hxo : x ∉ opened)
    (hx : x ∉ cache) (hnew : ∀ c ∈ s.kids x, c ∉ done) (hk : s.kids x ≠ []) :
    Tallied s cache counts (insert x opened) done where
  counted := by
    intro y hy
    rcases Finset.mem_insert.mp hy with rfl | hy
    · have hnone : (s.kids y).filter (· ∈ done) = [] := by
        refine List.filter_eq_nil_iff.mpr fun c hc => ?_
        simpa using hnew c hc
      rw [ht.fresh y hxo hx, hnone]
      exact ⟨rfl, List.length_pos_iff.mpr hk⟩
    · exact ht.counted y hy
  fresh := fun y hyo hyc => ht.fresh y (fun ho => hyo (Finset.mem_insert_of_mem ho)) hyc

/-- A queued block that is cached is done. -/
theorem Searching.finish (h : Searching s block cache (x :: queue) opened done) (hx : x ∈ cache) :
    Searching s block cache queue opened (insert x done) := by
  have hxq : x ∉ queue := (List.nodup_cons.mp h.nodup).1
  have hxo := h.apart x (List.mem_cons_self ..)
  have move : ∀ y, y ∈ x :: queue ∨ y ∈ opened ∨ y ∈ done →
      y ∈ queue ∨ y ∈ opened ∨ y ∈ insert x done := by
    intro y hy
    rcases hy with hq | ho | hd
    · rcases List.mem_cons.mp hq with rfl | hq
      · exact Or.inr (Or.inr (Finset.mem_insert_self _ _))
      · exact Or.inl hq
    · exact Or.inr (Or.inl ho)
    · exact Or.inr (Or.inr (Finset.mem_insert_of_mem hd))
  constructor
  · exact (List.nodup_cons.mp h.nodup).2
  · intro y hy
    have hya := h.apart y (List.mem_cons_of_mem _ hy)
    rw [Finset.mem_insert, not_or]
    refine ⟨hya.1, ?_, hya.2⟩
    rintro rfl
    exact hxq hy
  · intro y hy
    rw [Finset.mem_insert, not_or]
    refine ⟨?_, h.disjoint y hy⟩
    rintro rfl
    exact hxo.1 hy
  · exact move block h.start
  · intro y hy
    rcases hy with hq | ho | hd
    · exact h.below y (Or.inl (List.mem_cons_of_mem _ hq))
    · exact h.below y (Or.inr (Or.inl ho))
    · rcases Finset.mem_insert.mp hd with rfl | hd
      · exact h.below y (Or.inl (List.mem_cons_self ..))
      · exact h.below y (Or.inr (Or.inr hd))
  · intro y hy c hc
    exact move c (h.waits y hy c hc)
  · intro y hy hne
    rcases hy with hq | ho
    · exact h.up y (Or.inl (List.mem_cons_of_mem _ hq)) hne
    · exact h.up y (Or.inr ho) hne
  · intro y hy hne
    rcases Finset.mem_insert.mp hy with rfl | hy
    · exact Or.inl (h.up y (Or.inl (List.mem_cons_self ..)) hne)
    · exact h.upDone y hy hne
  · intro y hy
    rcases Finset.mem_insert.mp hy with rfl | hy
    · exact hx
    · exact h.cached y hy

/-- An opened block all of whose children are done is cached, and is finished next. -/
theorem Searching.close (t : Linked o depth s) (h : Searching s block cache queue opened done)
    (hp : p ∈ opened) (hk : ∀ c ∈ s.kids p, c ∈ done) (n : Nat) :
    Searching s block (cache.insert p n) (p :: queue) (opened.erase p) done := by
  have keep : ∀ y, y ∈ queue ∨ y ∈ opened ∨ y ∈ done →
      y ∈ p :: queue ∨ y ∈ opened.erase p ∨ y ∈ done := by
    intro y hy
    rcases hy with hq | ho | hd
    · exact Or.inl (List.mem_cons_of_mem _ hq)
    · by_cases hyp : y = p
      · exact Or.inl (hyp ▸ List.mem_cons_self ..)
      · exact Or.inr (Or.inl (Finset.mem_erase.mpr ⟨hyp, ho⟩))
    · exact Or.inr (Or.inr hd)
  have hbp := h.below p (Or.inr (Or.inl hp))
  constructor
  · exact List.nodup_cons.mpr ⟨fun hq => (h.apart p hq).1 hp, h.nodup⟩
  · intro y hy
    rcases List.mem_cons.mp hy with rfl | hy
    · exact ⟨Finset.notMem_erase y opened, h.disjoint y hp⟩
    · have hya := h.apart y hy
      exact ⟨fun ho => hya.1 (Finset.mem_of_mem_erase ho), hya.2⟩
  · intro y hy
    exact h.disjoint y (Finset.mem_of_mem_erase hy)
  · exact keep block h.start
  · intro y hy
    rcases hy with hq | ho | hd
    · rcases List.mem_cons.mp hq with rfl | hq
      · exact hbp
      · exact h.below y (Or.inl hq)
    · exact h.below y (Or.inr (Or.inl (Finset.mem_of_mem_erase ho)))
    · exact h.below y (Or.inr (Or.inr hd))
  · intro y hy c hc
    exact keep c (h.waits y (Finset.mem_of_mem_erase hy) c hc)
  · intro y hy hne
    have hold : y ∈ queue ∨ y ∈ opened := by
      rcases hy with hq | ho
      · rcases List.mem_cons.mp hq with rfl | hq
        · exact Or.inr hp
        · exact Or.inl hq
      · exact Or.inr (Finset.mem_of_mem_erase ho)
    have hbelow : Desc s.kids block y :=
      h.below y (hold.elim Or.inl fun ho => Or.inr (Or.inl ho))
    refine Finset.mem_erase.mpr ⟨fun hpar => ?_, h.up y hold hne⟩
    have hkid := t.kid_par hbelow hne
    rw [hpar] at hkid
    have hyd := hk y hkid
    rcases hold with hq | ho
    · exact (h.apart y hq).2 hyd
    · exact h.disjoint y ho hyd
  · intro y hy hne
    rw [AList.mem_insert]
    rcases h.upDone y hy hne with ho | hc
    · by_cases hyp : s.par y = p
      · exact Or.inr (Or.inl hyp)
      · exact Or.inl (Finset.mem_erase.mpr ⟨hyp, ho⟩)
    · exact Or.inr (Or.inr hc)
  · intro y hy
    rw [AList.mem_insert]
    exact Or.inr (h.cached y hy)

private theorem filter_insert_length {l : List Hash} (hn : l.Nodup) (hx : x ∈ l)
    (hd : x ∉ done) :
    (l.filter (· ∈ insert x done)).length = (l.filter (· ∈ done)).length + 1 := by
  induction l with
  | nil => cases hx
  | cons y l ih =>
    rw [List.nodup_cons] at hn
    rcases List.mem_cons.mp hx with rfl | hx
    · have hsame : l.filter (· ∈ insert x done) = l.filter (· ∈ done) := by
        refine List.filter_congr fun z hz => ?_
        have hzx : z ≠ x := fun h => hn.1 (h ▸ hz)
        simp [hzx]
      rw [List.filter_cons_of_pos (by simp), List.filter_cons_of_neg (by simpa using hd), hsame,
        List.length_cons]
    · have hyx : y ≠ x := fun h => hn.1 (h ▸ hx)
      have hih := ih hn.2 hx
      by_cases hy : y ∈ done
      · rw [List.filter_cons_of_pos (by simp [hy]), List.filter_cons_of_pos (by simpa using hy),
          List.length_cons, List.length_cons, hih]
      · rw [List.filter_cons_of_neg (by simp [hy, hyx]), List.filter_cons_of_neg (by simpa using hy),
          hih]

private theorem filter_insert_of_not_mem {l : List Hash} (hx : x ∉ l) :
    l.filter (· ∈ insert x done) = l.filter (· ∈ done) := by
  refine List.filter_congr fun z hz => ?_
  have hzx : z ≠ x := fun h => hx (h ▸ hz)
  simp [hzx]

theorem Tallied.finish_block (ht : Tallied s cache counts opened done)
    (hx : ∀ y ∈ opened, x ∉ s.kids y) : Tallied s cache counts opened (insert x done) where
  counted := by
    intro y hy
    rw [filter_insert_of_not_mem (hx y hy)]
    exact ht.counted y hy
  fresh := ht.fresh

/-- A finished block is counted at its parent, which still waits for another child. -/
theorem Tallied.finish (t : Linked o depth s) (ht : Tallied s cache counts opened done)
    (hk : x ∈ s.kids p) (hp : p ∈ opened) (hd : x ∉ done)
    (hlt : (counts.lookup p).getD 0 + 1 < (s.kids p).length) :
    Tallied s cache (counts.insert p ((counts.lookup p).getD 0 + 1)) opened (insert x done) where
  counted := by
    intro y hy
    by_cases hyp : y = p
    · subst hyp
      have hc := (ht.counted y hy).1
      rw [AList.lookup_insert, Option.getD_some, filter_insert_length (t.tree.nodup y) hk hd, ← hc]
      exact ⟨rfl, hlt⟩
    · have hxy : x ∉ s.kids y := fun h => hyp (t.tree.unique h hk)
      rw [AList.lookup_insert_ne hyp, filter_insert_of_not_mem hxy]
      exact ht.counted y hy
  fresh := by
    intro y hyo hyc
    have hyp : y ≠ p := fun h => hyo (h ▸ hp)
    rw [AList.lookup_insert_ne hyp]
    exact ht.fresh y hyo hyc

/-- A finished block is counted at its parent, which was waiting for no other child. -/
theorem Tallied.close (t : Linked o depth s) (ht : Tallied s cache counts opened done)
    (hk : x ∈ s.kids p) (n m : Nat) :
    Tallied s (cache.insert p n) (counts.insert p m) (opened.erase p) (insert x done) where
  counted := by
    intro y hy
    have hyp := Finset.ne_of_mem_erase hy
    have hxy : x ∉ s.kids y := fun h => hyp (t.tree.unique h hk)
    rw [AList.lookup_insert_ne hyp, filter_insert_of_not_mem hxy]
    exact ht.counted y (Finset.mem_of_mem_erase hy)
  fresh := by
    intro y hyo hyc
    rw [AList.mem_insert, not_or] at hyc
    rw [AList.lookup_insert_ne hyc.1]
    exact ht.fresh y (fun ho => hyo (Finset.mem_erase.mpr ⟨hyc.1, ho⟩)) hyc.2

/-- When the last child is counted, all of them are done. -/
theorem Tallied.all_done (t : Linked o depth s) (ht : Tallied s cache counts opened done)
    (hk : x ∈ s.kids p) (hp : p ∈ opened) (hd : x ∉ done)
    (hge : (s.kids p).length ≤ (counts.lookup p).getD 0 + 1) :
    ∀ c ∈ s.kids p, c ∈ insert x done := by
  have hlen := filter_insert_length (t.tree.nodup p) hk hd
  rw [← (ht.counted p hp).1] at hlen
  have hself := (List.filter_sublist (p := (· ∈ insert x done)) (l := s.kids p)).eq_of_length_le
    (by omega)
  intro c hc
  rw [← hself] at hc
  simpa using (List.mem_filter.mp hc).2

/-- The inner loop of `count_subtrees`: a block that is cached is done, and with it every block
above it that was waiting for it alone. -/
theorem pushUp_spec (ctx : ReindexOperationContext) (t : Linked o depth ctx.store)
    (hb : block ∈ ctx.store.nodes) (hC : C → ctx.store.count ≤ u64Max) {fuel : Nat}
    (hfuel : opened.card < fuel) (hx : x ∈ ctx.subtreeSizes)
    (hcache : Sized K ctx.store ctx.subtreeSizes)
    (h : Searching ctx.store block ctx.subtreeSizes (x :: queue) opened done)
    (ht : Tallied ctx.store ctx.subtreeSizes counts opened done) :
    Returns C (pushUp block fuel ctx counts x) (fun r => r.1.store = ctx.store ∧
      r.1.slack = ctx.slack ∧ Sized K ctx.store r.1.subtreeSizes ∧
      ∃ opened' done', Searching ctx.store block r.1.subtreeSizes queue opened' done' ∧
        Tallied ctx.store r.1.subtreeSizes r.2 opened' done' ∧
        opened'.card + done'.card = opened.card + done.card + 1) := by
  induction fuel generalizing ctx counts x opened done with
  | zero => omega
  | succ fuel ih =>
    have hxo := h.apart x (List.mem_cons_self ..)
    have hdone : (insert x done).card = done.card + 1 := Finset.card_insert_of_notMem hxo.2
    have hbx := h.below x (Or.inl (List.mem_cons_self ..))
    rw [pushUp]
    split_ifs with hxb
    · subst hxb
      refine Returns.ok ⟨rfl, rfl, hcache, opened, insert x done, h.finish hx, ?_, by omega⟩
      refine ht.finish_block fun y hy hk => ?_
      exact t.tree.not_desc_of_kid hk (h.below y (Or.inr (Or.inl hy)))
    · have hkid := t.kid_par hbx hxb
      have hopen := h.up x (Or.inl (List.mem_cons_self ..)) hxb
      have hparmem := t.tree.mem_of_kid hkid
      refine Returns.bind (getParent_spec fun _ => t.tree.closed hkid) fun p hp => ?_
      rw [hp.1]
      refine Returns.bind (getChildren_spec fun _ => hparmem) fun children hch => ?_
      rw [hch.1]
      have hcount := (ht.counted _ hopen).2
      rw [← (ht.counted _ hopen).1] at hcount
      have hlen := t.length_kids_le (ctx.store.par x)
      refine Returns.bind (addU64_spec fun hc => ?_) fun count hcnt => ?_
      · have := hC hc
        omega
      rw [hcnt.1]
      split_ifs with hlt
      · exact Returns.ok ⟨rfl, rfl, hcache, opened, insert x done, h.finish hx,
          ht.finish t hkid hopen hxo.2 hlt, by omega⟩
      · have hall := ht.all_done t hkid hopen hxo.2 (by omega)
        have hsearch := h.finish hx
        have hkc : ∀ c ∈ ctx.store.kids (ctx.store.par x), c ∈ ctx.subtreeSizes :=
          fun c hc => hsearch.cached c (hall c hc)
        have hsize := t.treeSize_eq hparmem
        have hle := treeSize_le_count ctx.store (ctx.store.par x)
        refine Returns.bind (subtreeSizes_spec hcache fun _ => hkc) fun sizes hsizes => ?_
        rw [hsizes.1]
        refine Returns.bind (sumU64_spec fun hc => ?_) fun sum hsum => ?_
        · have := hC hc
          omega
        rw [hsum.1]
        refine Returns.bind (addU64_spec fun hc => ?_) fun size hsz => ?_
        · have := hC hc
          omega
        rw [hsz.1, ← hsize]
        have hcard : (opened.erase (ctx.store.par x)).card + 1 = opened.card :=
          Finset.card_erase_add_one hopen
        have hfuel' : (opened.erase (ctx.store.par x)).card < fuel := by omega
        have hrec := ih ⟨ctx.store, ctx.subtreeSizes.insert (ctx.store.par x)
          (treeSize ctx.store (ctx.store.par x)), ctx.slack⟩ t hb hC hfuel'
          ((AList.mem_insert _).mpr (Or.inl rfl)) (hcache.insert hkc)
          (hsearch.close t hopen hall _)
          (ht.close t hkid _ ((counts.lookup (ctx.store.par x)).getD 0 + 1))
        refine hrec.mono ?_
        rintro r ⟨hs, hsl, hc, o', d', hse, hta, hcd⟩
        exact ⟨hs, hsl, hc, o', d', hse, hta, by omega⟩

theorem countLoop_spec (ctx : ReindexOperationContext) (t : Linked o depth ctx.store)
    (hb : block ∈ ctx.store.nodes) (hC : C → ctx.store.count ≤ u64Max) {fuel : Nat}
    (hfuel : ctx.store.count < fuel + (opened.card + done.card))
    (hcache : Sized K ctx.store ctx.subtreeSizes)
    (h : Searching ctx.store block ctx.subtreeSizes queue opened done)
    (ht : Tallied ctx.store ctx.subtreeSizes counts opened done) :
    Returns C (countLoop block fuel ctx counts queue) (fun ctx' => ctx'.store = ctx.store ∧
      ctx'.slack = ctx.slack ∧ Sized K ctx.store ctx'.subtreeSizes ∧
      block ∈ ctx'.subtreeSizes) := by
  induction fuel generalizing ctx counts queue opened done with
  | zero =>
    have := h.card_le t hb
    omega
  | succ fuel ih =>
    cases queue with
    | nil => exact Returns.ok ⟨rfl, rfl, hcache, h.cached block (h.block_done t ht)⟩
    | cons x queue =>
      have hxmem := t.tree.mem_desc (h.below x (Or.inl (List.mem_cons_self ..))) hb
      have hxo := h.apart x (List.mem_cons_self ..)
      refine Returns.bind (getChildren_spec fun _ => hxmem) fun children hch => ?_
      rw [hch.1]
      by_cases hexp : ctx.store.kids x ≠ [] ∧ x ∉ ctx.subtreeSizes
      · -- The block is opened.
        have hnone := AList.lookup_eq_none.mpr hexp.2
        have hcond : (!(ctx.store.kids x).isEmpty && (ctx.subtreeSizes.lookup x).isNone) = true := by
          simp [hnone, hexp.1]
        rw [if_pos hcond]
        have hcard : (insert x opened).card = opened.card + 1 :=
          Finset.card_insert_of_notMem hxo.1
        exact ih ctx t hb hC (by omega) hcache (h.expand t hexp.2)
          (ht.expand hxo.1 hexp.2 (fun c hc => (h.kids_new t hexp.2 hc).2.2) hexp.1)
      · -- The block is a leaf or cached already: it is done.
        have hcond : ¬(!(ctx.store.kids x).isEmpty && (ctx.subtreeSizes.lookup x).isNone) = true := by
          intro hc
          simp only [Bool.and_eq_true, Bool.not_eq_true', List.isEmpty_eq_false_iff,
            Option.isNone_iff_eq_none, AList.lookup_eq_none] at hc
          exact hexp hc
        rw [if_neg hcond]
        set cache := if (ctx.store.kids x).isEmpty then ctx.subtreeSizes.insert x 1
          else ctx.subtreeSizes with hcachedef
        have hctx : (if (ctx.store.kids x).isEmpty = true then
            ({ ctx with subtreeSizes := ctx.subtreeSizes.insert x 1 } : ReindexOperationContext)
            else ctx) = ⟨ctx.store, cache, ctx.slack⟩ := by
          rw [hcachedef]
          split_ifs <;> rfl
        rw [hctx]
        have hgrow : ∀ y ∈ ctx.subtreeSizes, y ∈ cache := by
          intro y hy
          rw [hcachedef]
          split_ifs
          · exact (AList.mem_insert _).mpr (Or.inr hy)
          · exact hy
        have hxc : x ∈ cache := by
          rw [hcachedef]
          split_ifs with hleaf
          · exact (AList.mem_insert _).mpr (Or.inl rfl)
          · by_contra hx
            exact hexp ⟨by simpa using hleaf, hx⟩
        have hcached : Sized K ctx.store cache := by
          rw [hcachedef]
          split_ifs with hleaf
          · have hk : ctx.store.kids x = [] := by simpa using hleaf
            have hone : treeSize ctx.store x = 1 := by
              rw [t.treeSize_eq hxmem, hk]
              rfl
            have hins := hcache.insert (x := x) (by simp [hk])
            rwa [hone] at hins
          · exact hcache
        have hsearch : Searching ctx.store block cache (x :: queue) opened done :=
          ⟨h.nodup, h.apart, h.disjoint, h.start, h.below, h.waits, h.up,
            fun y hy hne => (h.upDone y hy hne).imp id (hgrow _), fun y hy => hgrow y (h.cached y hy)⟩
        have htally : Tallied ctx.store cache counts opened done :=
          ⟨ht.counted, fun y hyo hyc => ht.fresh y hyo fun hy => hyc (hgrow y hy)⟩
        have hcl := h.card_le t hb
        have hfuel' : opened.card < ctx.store.count + 1 := by omega
        refine Returns.bind (pushUp_spec ⟨ctx.store, cache, ctx.slack⟩ t hb hC
          hfuel' hxc hcached hsearch htally) ?_
        rintro ⟨⟨store, cache', slack⟩, counts'⟩ ⟨hs, hsl, hc, o', d', hse, hta, hcd⟩
        simp only at hs hsl hc hse hta hcd
        subst hs hsl
        have hfuel'' : ctx.store.count < fuel + (o'.card + d'.card) := by omega
        exact ih ⟨ctx.store, cache', ctx.slack⟩ t hb hC hfuel'' hc hse hta

/-- `count_subtrees` caches the size of the subtree of `block`. -/
theorem countSubtrees_sized {ctx : ReindexOperationContext} (t : Linked o depth ctx.store)
    (hb : block ∈ ctx.store.nodes) (hC : C → ctx.store.count ≤ u64Max)
    (hcache : Sized K ctx.store ctx.subtreeSizes) :
    Returns C (ctx.countSubtrees block) (fun ctx' => ctx'.store = ctx.store ∧
      ctx'.slack = ctx.slack ∧ Sized K ctx.store ctx'.subtreeSizes ∧
      block ∈ ctx'.subtreeSizes) := by
  rw [countSubtrees]
  split_ifs with hin
  · exact Returns.ok ⟨rfl, rfl, hcache, AList.lookup_isSome.mp hin⟩
  · exact countLoop_spec ctx t hb hC (by simp) hcache Searching.init Tallied.init

theorem countSubtrees_spec {ctx : ReindexOperationContext} (t : TreeInv o ctx.store)
    (hb : block ∈ ctx.store.nodes) (hC : C → ctx.store.count ≤ u64Max)
    (hcache : Cached ctx.store ctx.subtreeSizes) :
    Returns C (ctx.countSubtrees block) (fun ctx' => ctx'.store = ctx.store ∧
      ctx'.slack = ctx.slack ∧ Cached ctx.store ctx'.subtreeSizes ∧
      block ∈ ctx'.subtreeSizes) := by
  refine (countSubtrees_sized t.linked hb hC hcache.sized).mono fun ctx' h => ?_
  exact ⟨h.1, h.2.1, h.2.2.1.cached, h.2.2.2⟩

/-- Whatever exact sizes are cached, `count_subtrees` returns, changes only the cache, keeps every
cached size exact and caches the number of blocks below `block`. -/
theorem countSubtrees_exact {ctx : ReindexOperationContext} (t : Linked o depth ctx.store)
    (hb : block ∈ ctx.store.nodes) (hcount : ctx.store.count ≤ u64Max)
    (hexact : ∀ x n, ctx.subtreeSizes.lookup x = some n → n = treeSize ctx.store x) :
    ∃ ctx', ctx.countSubtrees block = .ok ctx' ∧ ctx'.store = ctx.store ∧
      ctx'.slack = ctx.slack ∧
      (∀ x n, ctx'.subtreeSizes.lookup x = some n → n = treeSize ctx.store x) ∧
      ctx'.subtreeSizes.lookup block = some (treeSize ctx.store block) := by
  have hsized : Sized False ctx.store ctx.subtreeSizes := ⟨fun h => hexact _ _ h, False.elim⟩
  obtain ⟨ctx', hrun, hstore, hslack, hsized', hblock⟩ :=
    (countSubtrees_sized t hb (fun _ => hcount) hsized : Returns True _ _).total
  refine ⟨ctx', hrun, hstore, hslack, fun x n h => hsized'.exact h, ?_⟩
  obtain ⟨n, hn⟩ := Option.isSome_iff_exists.mp (AList.lookup_isSome.mpr hblock)
  rw [hn, hsized'.exact hn]

/-- A block with one child whose size is cached. -/
theorem countSubtrees_exact_pair : ∃ (s : Store) (ctx' : ReindexOperationContext),
    s.nodes = {1, 2} ∧ s.kids 1 = [2] ∧
      countSubtrees ⟨s, AList.insert 2 1 ∅, 0⟩ 1 = .ok ctx' ∧
      ctx'.subtreeSizes.lookup 1 = some 2 := by
  let s : Store := ⟨AList.insert 1 ⟨[2], blockhash.none, .maximal, 0, []⟩
    (AList.insert 2 (.new 1 .maximal 1) ∅), none⟩
  have hnodes : s.nodes = {1, 2} := by decide
  have hkids : ∀ x, s.kids x = if x = 1 then [2] else [] := by
    intro x
    by_cases h₁ : x = 1
    · subst h₁
      rfl
    · rw [if_neg h₁]
      by_cases h₂ : x = 2
      · subst h₂
        rfl
      · refine kids_of_not_mem fun hx => ?_
        rw [hnodes] at hx
        rcases Finset.mem_insert.mp hx with hx | hx
        · exact h₁ hx
        · exact h₂ (Finset.mem_singleton.mp hx)
  have hkid : ∀ {x y}, y ∈ s.kids x → x = 1 ∧ y = 2 := by
    intro x y hy
    rw [hkids] at hy
    split_ifs at hy with hx
    · exact ⟨hx, List.mem_singleton.mp hy⟩
    · cases hy
  have t : Linked 1 s.depth s := by
    constructor
    · constructor
      · simp [hnodes]
      · intro x y hy
        rw [(hkid hy).2]
        simp [hnodes]
      · exact fun hx => kids_of_not_mem hx
      · intro x
        rw [hkids]
        split_ifs <;> simp
      · intro x x' y hy hy'
        rw [(hkid hy).1, (hkid hy').1]
      · intro x y hy
        rw [(hkid hy).1, (hkid hy).2]
        rfl
      · intro x hx
        rw [hnodes] at hx
        rcases Finset.mem_insert.mp hx with rfl | hx
        · exact .refl
        · rw [Finset.mem_singleton.mp hx]
          exact .kid (by simp [hkids])
    · intro x y hy
      rw [(hkid hy).1, (hkid hy).2]
      rfl
  have htwo : treeSize s 2 = 1 := by
    rw [t.treeSize_eq (by simp [hnodes]), hkids, if_neg (by decide)]
    rfl
  have hone : treeSize s 1 = 2 := by
    rw [t.treeSize_eq (by simp [hnodes]), hkids, if_pos rfl, List.map_singleton, htwo]
    rfl
  let ctx : ReindexOperationContext := ⟨s, AList.insert 2 1 ∅, 0⟩
  have hexact : ∀ x n, ctx.subtreeSizes.lookup x = some n → n = treeSize s x := by
    intro x n h
    by_cases hx : x = 2
    · subst hx
      rw [AList.lookup_insert] at h
      rw [← Option.some.inj h, htwo]
    · rw [AList.lookup_insert_ne hx, AList.lookup_empty] at h
      cases h
  have hmem : (1 : Hash) ∈ ctx.store.nodes := by simp [ctx, hnodes]
  obtain ⟨ctx', hrun, _, _, _, hsize⟩ :=
    countSubtrees_exact (show Linked 1 s.depth ctx.store from t) hmem (by decide) hexact
  exact ⟨s, ctx', hnodes, by simp [hkids], hrun, by rw [hsize, hone]⟩

end ReindexOperationContext

end TaoDag.Reachability
