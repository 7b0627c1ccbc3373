import TaoDag.Framework.Returns
import TaoDag.Prototype.Cluster

namespace TaoDag.Prototype.Dag

open BlockDag KCluster

variable {dag dag' dag₁ dag₂ : Dag} {k : Nat} {genesis b c x y sp : BlockId} {node node' : Node}
  {l m accepted blues reds ps : List BlockId} {S₀ : Finset BlockId}

/-- `is_anticone`, as a relation. -/
def Apart (dag : Dag) (c x : BlockId) : Prop := dag.isAnticone x c = true

section Loop

theorem length_filter_apart (hnodup : accepted.Nodup) :
    (accepted.filter fun x => dag.isAnticone x c).length = count dag.Apart accepted.toFinset c := by
  have hset : (accepted.filter fun x => dag.isAnticone x c).toFinset =
      anticone dag.Apart accepted.toFinset c := by
    ext x
    rw [List.mem_toFinset, List.mem_filter, mem_anticone, List.mem_toFinset, Apart]
  rw [count, ← hset, List.toFinset_card_of_nodup (hnodup.filter _)]

/-- The two checks of the loop are the greedy rule, in whatever order the blues are listed. -/
theorem admits_iff (dag : Dag) (hnodup : accepted.Nodup) : Admits dag.Apart dag.k accepted.toFinset c ↔
    ¬dag.k < (accepted.filter fun x => dag.isAnticone x c).length ∧
      ((accepted.filter fun x => dag.isAnticone x c).all fun x =>
        (accepted.filter fun y => dag.isAnticone y x).length + 1 ≤ dag.k) = true := by
  rw [Admits, length_filter_apart hnodup, List.all_eq_true, Nat.not_lt]
  apply and_congr_right
  intro _
  constructor
  · intro h x hx
    obtain ⟨hmem, hanti⟩ := List.mem_filter.mp hx
    rw [length_filter_apart hnodup]
    exact decide_eq_true (h x (List.mem_toFinset.mpr hmem) hanti)
  · intro h x hx hanti
    have hroom := h x (List.mem_filter.mpr ⟨List.mem_toFinset.mp hx, hanti⟩)
    rw [length_filter_apart hnodup, decide_eq_true_eq] at hroom
    exact hroom

/-- The loop is the greedy colouring. -/
theorem classify_greedy (hrun : Greedy dag.Apart dag.k S₀ l blues reds)
    (hacc : accepted.toFinset = S₀ ∪ blues.toFinset) (hnodup : (accepted ++ m).Nodup) :
    Greedy dag.Apart dag.k S₀ (l ++ m) (dag.classify m accepted blues reds).1
      (dag.classify m accepted blues reds).2 := by
  induction m generalizing l accepted blues reds with
  | nil => simpa [classify] using hrun
  | cons c m ih =>
    have haccepted := hnodup.sublist (List.sublist_append_left accepted (c :: m))
    have hrest : (accepted ++ m).Nodup :=
      hnodup.sublist ((List.sublist_cons_self c m).append_left accepted)
    have hiff := admits_iff (c := c) dag haccepted
    rw [hacc] at hiff
    have hred : ¬Admits dag.Apart dag.k (S₀ ∪ blues.toFinset) c →
        Greedy dag.Apart dag.k S₀ (l ++ c :: m) (dag.classify m accepted blues (reds ++ [c])).1
          (dag.classify m accepted blues (reds ++ [c])).2 := by
      intro hno
      simpa using ih (hrun.red hno) hacc hrest
    rw [classify]
    split_ifs with h1 h2
    · exact hred fun ha => (hiff.mp ha).1 h1
    · have hset : (accepted ++ [c]).toFinset = S₀ ∪ (blues ++ [c]).toFinset := by
        rw [List.toFinset_append, List.toFinset_append, hacc, Finset.union_assoc]
      have hnext := ih (hrun.blue (hiff.mpr ⟨h1, h2⟩)) hset (by simpa using hnodup)
      simpa using hnext
    · exact hred fun ha => h2 (hiff.mp ha).2

end Loop

section Heaviest

theorem scoreLe_refl : dag.scoreLe b b = true := by
  simp [scoreLe]

theorem scoreLe_trans (h : dag.scoreLe b c = true) (h' : dag.scoreLe c x = true) :
    dag.scoreLe b x = true := by
  simp only [scoreLe, decide_eq_true_eq] at h h' ⊢
  omega

theorem scoreLe_total (h : ¬dag.scoreLe b c = true) : dag.scoreLe c b = true := by
  simp only [scoreLe, decide_eq_true_eq] at h ⊢
  omega

theorem scoreLe_antisymm (h : dag.scoreLe b c = true) (h' : dag.scoreLe c b = true) : b = c := by
  simp only [scoreLe, decide_eq_true_eq] at h h'
  apply BitVec.eq_of_toNat_eq
  omega

/-- `max_by_key` gives a block that no other of the list beats. -/
theorem heaviest_max (best : BlockId) (l : List BlockId) :
    ∀ q ∈ best :: l, dag.scoreLe q (dag.heaviest best l) = true := by
  induction l generalizing best with
  | nil =>
    intro q hq
    rw [List.mem_singleton.mp hq]
    exact scoreLe_refl
  | cons b l ih =>
    intro q hq
    rw [heaviest]
    split
    case isTrue hle =>
      rcases List.mem_cons.mp hq with rfl | hq
      · exact scoreLe_trans hle (ih b b List.mem_cons_self)
      · exact ih b q hq
    case isFalse hle =>
      rcases List.mem_cons.mp hq with rfl | hq
      · exact ih q q List.mem_cons_self
      · rcases List.mem_cons.mp hq with rfl | hq
        · exact scoreLe_trans (scoreLe_total hle) (ih best best List.mem_cons_self)
        · exact ih best q (List.mem_cons_of_mem best hq)

end Heaviest

section Choice

/-- What a block stores: the best of its parents, and the colours that the greedy rule gives to its
mergeset `m`. It says nothing about how the hash sets are listed. -/
structure Choice (dag : Dag) (b : BlockId) (node : Node) (sp : BlockId) (m : List BlockId) : Prop where
  selected : node.selectedParent = some sp
  mem : sp ∈ node.parents
  max : ∀ q ∈ node.parents, dag.scoreLe q sp = true
  sorted : m.Pairwise dag.topoLe
  nodup : m.Nodup
  merged : ∀ x, x ∈ m ↔ x ∈ node.past ∧ x ≠ sp ∧ x ∉ dag.pastOf sp
  greedy : Greedy dag.Apart dag.k (dag.blueSetOf sp).toFinset m node.mergesetBlues node.mergesetReds
  blueSet : ∀ x, x ∈ node.blueSet ↔ x ∈ dag.blueSetOf sp ∨ x ∈ node.mergesetBlues ∨ x = b

/-- What `add_block` stores. -/
theorem addBlock_choice (h : Built k genesis dag) (run : dag.addBlock b ps = .ok dag') :
    ∃ node sp m, dag' = { dag with nodes := dag.nodes.insert b node } ∧ node.parents = ps ∧
      node.past = dag.unionPast ps ∧ Choice dag b node sp m := by
  obtain ⟨_, hall⟩ := h.blueSets
  obtain ⟨_, hknown, _⟩ := addBlock_spec run
  unfold addBlock at run
  split at run
  · cases run
  cases ps with
  | nil => cases run
  | cons p ps =>
    simp only at run
    split at run
    · cases run
    cases run
    have hperm := List.perm_insertionSort dag.topoLe ((dag.unionPast (p :: ps)).filter fun b =>
      b ≠ dag.heaviest p ps ∧ b ∉ dag.pastOf (dag.heaviest p ps))
    have hmem : dag.heaviest p ps ∈ p :: ps := heaviest_mem p ps
    obtain ⟨spNode, hspNode⟩ := hknown _ hmem
    have hblues : Blues dag (dag.heaviest p ps) (dag.blueSetOf (dag.heaviest p ps)) := by
      rw [blueSetOf, hspNode]
      exact hall _ spNode hspNode
    have hpast : (dag.unionPast (p :: ps)).Nodup := unionPast_nodup
    refine ⟨_, dag.heaviest p ps, _, rfl, rfl, rfl, rfl, hmem, heaviest_max p ps,
      topoLe_sorted _, hperm.nodup_iff.mpr (hpast.filter _), fun x => ?_, ?_, fun x => ?_⟩
    · rw [hperm.mem_iff, List.mem_filter, decide_eq_true_eq]
    · have hnode : (⟨p :: ps, dag.unionPast (p :: ps), [], none, [], []⟩ : Node).past.Nodup := hpast
      have hfresh := h.inv.1.blueSet_fresh hnode hblues hperm
      exact classify_greedy .nil (by simp) hfresh
    · simp only [List.mem_append, List.mem_singleton, or_assoc]

theorem pastOf_insert (hc : c ≠ b) :
    pastOf { dag with nodes := dag.nodes.insert b node } c = dag.pastOf c := by
  rw [pastOf, AList.lookup_insert_ne hc, pastOf]

theorem blueSetOf_insert (hc : c ≠ b) :
    blueSetOf { dag with nodes := dag.nodes.insert b node } c = dag.blueSetOf c := by
  rw [blueSetOf, AList.lookup_insert_ne hc, blueSetOf]

/-- A block that comes later changes nothing of it. -/
theorem Choice.insert (h : Choice dag c node sp m) (hparents : b ∉ node.parents)
    (hpast : b ∉ node.past) (hblues : b ∉ dag.blueSetOf sp) :
    Choice { dag with nodes := dag.nodes.insert b node' } c node sp m := by
  have hne : ∀ {l : List BlockId} {x}, b ∉ l → x ∈ l → x ≠ b := fun hb hx heq => hb (heq ▸ hx)
  have hsp : sp ≠ b := hne hparents h.mem
  have hm : ∀ {x}, x ∈ m → x ≠ b := fun hx => hne hpast ((h.merged _).mp hx).1
  constructor
  case selected => exact h.selected
  case mem => exact h.mem
  case max =>
    intro q hq
    have hle := h.max q hq
    simp only [scoreLe, blueScore, blueSetOf_insert hsp, blueSetOf_insert (hne hparents hq)] at hle ⊢
    exact hle
  case sorted =>
    apply h.sorted.imp_of_mem
    intro x y hx hy hle
    rw [topoLe, pastOf_insert (hm hx), pastOf_insert (hm hy)]
    exact hle
  case nodup => exact h.nodup
  case merged =>
    rw [pastOf_insert hsp]
    exact h.merged
  case greedy =>
    rw [blueSetOf_insert hsp]
    apply h.greedy.congr
    have hin : ∀ {x}, x ∈ (dag.blueSetOf sp).toFinset ∪ m.toFinset → x ≠ b := by
      intro x hx
      simp only [Finset.mem_union, List.mem_toFinset] at hx
      exact hx.elim (hne hblues) hm
    intro x hx y hy
    rw [Apart, Apart, isAnticone, isAnticone, pastOf_insert (hin hx), pastOf_insert (hin hy)]
  case blueSet =>
    rw [blueSetOf_insert hsp]
    exact h.blueSet

/-- Every block but genesis stores such a choice. -/
theorem Built.choice (h : Built k genesis dag) (hb : dag.nodes.lookup b = some node)
    (hne : b ≠ genesis) : ∃ sp m, Choice dag b node sp m := by
  induction h generalizing b node with
  | new =>
    rw [Dag.new, AList.lookup_eq_none.mpr (by simpa [AList.mem_keys] using hne)] at hb
    cases hb
  | @add dag dag' id ps before run ih =>
    have inv := before.inv.1
    obtain ⟨_, hall⟩ := before.blueSets
    obtain ⟨hnew, hknown, _⟩ := addBlock_spec run
    obtain ⟨stored, sp, m, rfl, hps, hpast, hchoice⟩ := addBlock_choice before run
    have hfresh : id ∉ dag.nodes.keys.toFinset := by
      rw [mem_keys]
      rintro ⟨n, hn⟩
      cases hnew.symm.trans hn
    have hreach : ∀ {x q}, Reach dag.parents x q → q ∈ dag.nodes.keys.toFinset → x ≠ id :=
      fun hx hq heq => hfresh (heq ▸ inv.isDag.mem_of_reach hx hq)
    have hblues : ∀ {q}, q ∈ dag.nodes.keys.toFinset → id ∉ dag.blueSetOf q := by
      intro q hq hmem
      obtain ⟨n, hn⟩ := mem_keys.mp hq
      have hset := hall q n hn
      rw [blueSetOf, hn] at hmem
      exact hreach (hset.reach id hmem) hq rfl
    by_cases hid : b = id
    · subst hid
      cases (AList.lookup_insert _).symm.trans hb
      have hkeys : ∀ q ∈ ps, q ∈ dag.nodes.keys.toFinset := fun q hq => mem_keys.mpr (hknown q hq)
      refine ⟨sp, m, hchoice.insert ?_ ?_ (hblues (hkeys sp (hps ▸ hchoice.mem)))⟩
      · rw [hps]
        exact fun hmem => hfresh (hkeys b hmem)
      · rw [hpast, inv.mem_unionPast]
        rintro ⟨q, hq, hx⟩
        exact hreach hx (hkeys q hq) rfl
    · rw [AList.lookup_insert_ne hid] at hb
      obtain ⟨sp', m', hold⟩ := ih hb hne
      have hparents : ∀ q ∈ node.parents, q ∈ dag.nodes.keys.toFinset := by
        intro q hq
        apply inv.isDag.closed (y := b)
        rw [parents, hb]
        exact hq
      refine ⟨sp', m', hold.insert ?_ ?_ (hblues (hparents sp' hold.mem))⟩
      · exact fun hmem => hfresh (hparents id hmem)
      · intro hmem
        have hpastOf : id ∈ dag.pastOf b := by
          rw [pastOf, hb]
          exact hmem
        exact hfresh (inv.isDag.mem_of_past ((inv.past id b).mp hpastOf))

end Choice

section Converge

/-- Two DAGs over one genesis with the same blocks, each with the same parents. -/
structure SameBlocks (k : Nat) (genesis : BlockId) (dag₁ dag₂ : Dag) : Prop where
  left : Built k genesis dag₁
  right : Built k genesis dag₂
  blocks : ∀ b, b ∈ dag₁.nodes ↔ b ∈ dag₂.nodes
  parents : ∀ b x, x ∈ dag₁.parents b ↔ x ∈ dag₂.parents b

namespace SameBlocks

theorem symm (h : SameBlocks k genesis dag₁ dag₂) : SameBlocks k genesis dag₂ dag₁ :=
  ⟨h.right, h.left, fun b => (h.blocks b).symm, fun b x => (h.parents b x).symm⟩

theorem mem_past (h : SameBlocks k genesis dag₁ dag₂) (x b : BlockId) :
    x ∈ dag₁.pastOf b ↔ x ∈ dag₂.pastOf b := by
  have hrel : (fun x y => x ∈ dag₁.parents y) = fun x y => x ∈ dag₂.parents y := by
    funext x y
    exact propext (h.parents y x)
  rw [h.left.inv.1.past, h.right.inv.1.past, Past, Past, hrel]

theorem past_length (h : SameBlocks k genesis dag₁ dag₂) (b : BlockId) :
    (dag₁.pastOf b).length = (dag₂.pastOf b).length := by
  have hperm := (List.perm_ext_iff_of_nodup (h.left.inv.1.nodup b) (h.right.inv.1.nodup b)).mpr
    fun x => h.mem_past x b
  exact hperm.length_eq

theorem topoLe (h : SameBlocks k genesis dag₁ dag₂) : dag₁.topoLe = dag₂.topoLe := by
  funext a b
  rw [Dag.topoLe, Dag.topoLe, h.past_length, h.past_length]

theorem apart (h : SameBlocks k genesis dag₁ dag₂) : dag₁.Apart = dag₂.Apart := by
  funext c x
  rw [Apart, Apart, isAnticone, isAnticone]
  simp only [h.mem_past]

end SameBlocks

theorem topoLe_antisymm (h : dag.topoLe b c) (h' : dag.topoLe c b) : b = c := by
  rw [topoLe] at h h'
  apply BitVec.eq_of_toNat_eq
  omega

theorem sorted_unique {l l' : List BlockId} (hl : l.Pairwise dag.topoLe) (hl' : l'.Pairwise dag.topoLe)
    (hperm : l.Perm l') : l = l' :=
  hperm.eq_of_pairwise (fun _ _ _ _ h h' => topoLe_antisymm h h') hl hl'

/-- What both say of a block: the same, but for how a hash set is listed. -/
structure Alike (node₁ node₂ : Node) : Prop where
  blueSet : ∀ x, x ∈ node₁.blueSet ↔ x ∈ node₂.blueSet
  score : node₁.blueSet.length = node₂.blueSet.length
  selected : node₁.selectedParent = node₂.selectedParent
  blues : node₁.mergesetBlues = node₂.mergesetBlues
  reds : node₁.mergesetReds = node₂.mergesetReds

theorem Alike.refl : Alike node node := ⟨fun _ => Iff.rfl, rfl, rfl, rfl, rfl⟩

theorem SameBlocks.alike (h : SameBlocks k genesis dag₁ dag₂) {node₁ node₂ : Node}
    (hb₁ : dag₁.nodes.lookup b = some node₁) (hb₂ : dag₂.nodes.lookup b = some node₂) :
    Alike node₁ node₂ := by
  induction hn : (dag₁.pastOf b).length using Nat.strong_induction_on generalizing b node₁ node₂ with
  | _ n ih =>
    subst hn
    obtain ⟨inv₁, hgen₁⟩ := h.left.inv
    obtain ⟨inv₂, hgen₂⟩ := h.right.inv
    by_cases hgen : b = genesis
    · have hroot₁ := inv₁.genesis
      have hroot₂ := inv₂.genesis
      rw [hgen₁, ← hgen, hb₁] at hroot₁
      rw [hgen₂, ← hgen, hb₂] at hroot₂
      cases hroot₁
      cases hroot₂
      exact .refl
    obtain ⟨hk₁, hall₁⟩ := h.left.blueSets
    obtain ⟨hk₂, hall₂⟩ := h.right.blueSets
    obtain ⟨sp₁, m₁, hc₁⟩ := h.left.choice hb₁ hgen
    obtain ⟨sp₂, m₂, hc₂⟩ := h.right.choice hb₂ hgen
    have hps₁ : dag₁.parents b = node₁.parents := by
      rw [Dag.parents, hb₁]
      rfl
    have hps₂ : dag₂.parents b = node₂.parents := by
      rw [Dag.parents, hb₂]
      rfl
    have hparents : ∀ q, q ∈ node₁.parents ↔ q ∈ node₂.parents := by
      intro q
      rw [← hps₁, ← hps₂]
      exact h.parents b q
    have hearlier : ∀ q ∈ node₁.parents, (∀ x, x ∈ dag₁.blueSetOf q ↔ x ∈ dag₂.blueSetOf q) ∧
        dag₁.blueScore q = dag₂.blueScore q := by
      intro q hq
      have hpq : q ∈ dag₁.parents b := hps₁ ▸ hq
      obtain ⟨n₁, hn₁⟩ := mem_keys.mp (inv₁.isDag.closed hpq)
      obtain ⟨n₂, hn₂⟩ := mem_keys.mp (inv₂.isDag.closed ((h.parents b q).mp hpq))
      have hlt := inv₁.past_lt (Relation.TransGen.single hpq : Past dag₁.parents q b)
      have hsame := ih _ hlt hn₁ hn₂ rfl
      rw [blueScore, blueScore, blueSetOf, blueSetOf, hn₁, hn₂]
      exact ⟨hsame.blueSet, hsame.score⟩
    have hsp : sp₁ = sp₂ := by
      have hmem₂ := (hparents sp₂).mpr hc₂.mem
      have hle := hc₂.max sp₁ ((hparents sp₁).mp hc₁.mem)
      simp only [scoreLe, ← (hearlier sp₁ hc₁.mem).2, ← (hearlier sp₂ hmem₂).2] at hle
      exact scoreLe_antisymm hle (hc₁.max sp₂ hmem₂)
    subst hsp
    have hbase : (dag₁.blueSetOf sp₁).toFinset = (dag₂.blueSetOf sp₁).toFinset := by
      ext x
      rw [List.mem_toFinset, List.mem_toFinset]
      exact (hearlier sp₁ hc₁.mem).1 x
    have hm : m₁ = m₂ := by
      apply sorted_unique hc₁.sorted (h.topoLe ▸ hc₂.sorted)
      rw [List.perm_ext_iff_of_nodup hc₁.nodup hc₂.nodup]
      intro x
      have hpast : x ∈ node₁.past ↔ x ∈ node₂.past := by
        have hx := h.mem_past x b
        rw [pastOf, pastOf, hb₁, hb₂] at hx
        exact hx
      rw [hc₁.merged, hc₂.merged, hpast, h.mem_past]
    have hgreedy := hc₂.greedy
    rw [← hm, ← hbase, ← h.apart, hk₂, ← hk₁] at hgreedy
    obtain ⟨hblues, hreds⟩ := hc₁.greedy.unique hgreedy
    have hset : ∀ x, x ∈ node₁.blueSet ↔ x ∈ node₂.blueSet := by
      intro x
      rw [hc₁.blueSet, hc₂.blueSet, hblues, (hearlier sp₁ hc₁.mem).1]
    have hperm := (List.perm_ext_iff_of_nodup (hall₁ b node₁ hb₁).nodup (hall₂ b node₂ hb₂).nodup).mpr
      hset
    exact ⟨hset, hperm.length_eq, hc₁.selected.trans hc₂.selected.symm, hblues, hreds⟩

/-- `max_by_key` depends on the members of the list only. -/
theorem heaviest_unique {best best' : BlockId} {l l' : List BlockId}
    (hscore : ∀ q, dag₁.blueScore q = dag₂.blueScore q)
    (hsame : ∀ q, q ∈ best :: l ↔ q ∈ best' :: l') :
    dag₁.heaviest best l = dag₂.heaviest best' l' := by
  have hle : ∀ x y, dag₂.scoreLe x y = dag₁.scoreLe x y := by
    intro x y
    rw [scoreLe, scoreLe, hscore, hscore]
  have hmem₁ : dag₁.heaviest best l ∈ best :: l := heaviest_mem best l
  have hmem₂ : dag₂.heaviest best' l' ∈ best' :: l' := heaviest_mem best' l'
  have h₂ : dag₂.scoreLe (dag₁.heaviest best l) (dag₂.heaviest best' l') = true :=
    heaviest_max best' l' _ ((hsame _).mp hmem₁)
  rw [hle] at h₂
  exact scoreLe_antisymm h₂ (heaviest_max best l _ ((hsame _).mpr hmem₂))

theorem chainLoop_congr (hselected : dag₁.selectedParent = dag₂.selectedParent) (fuel : Nat)
    (cur : Option BlockId) : dag₁.chainLoop fuel cur = dag₂.chainLoop fuel cur := by
  induction fuel generalizing cur with
  | zero => cases cur <;> rfl
  | succ fuel ih =>
    cases cur with
    | none => rfl
    | some b => rw [chainLoop, chainLoop, ih, hselected]

/-- Two DAGs of the same blocks give every block the same place. -/
theorem SameBlocks.converges (h : SameBlocks k genesis dag₁ dag₂) :
    dag₁.order = dag₂.order ∧ dag₁.tip = dag₂.tip ∧ ∀ b, dag₁.blueScore b = dag₂.blueScore b ∧
      dag₁.selectedParent b = dag₂.selectedParent b ∧
      ∀ x, x ∈ dag₁.blueSetOf b ↔ x ∈ dag₂.blueSetOf b := by
  obtain ⟨inv₁, hgen₁⟩ := h.left.inv
  obtain ⟨inv₂, hgen₂⟩ := h.right.inv
  have hcases : ∀ b, (dag₁.nodes.lookup b = none ∧ dag₂.nodes.lookup b = none) ∨
      ∃ node₁ node₂, dag₁.nodes.lookup b = some node₁ ∧ dag₂.nodes.lookup b = some node₂ ∧
        Alike node₁ node₂ := by
    intro b
    by_cases hb : b ∈ dag₁.nodes
    · right
      obtain ⟨node₁, hb₁⟩ := Option.isSome_iff_exists.mp (AList.lookup_isSome.mpr hb)
      obtain ⟨node₂, hb₂⟩ :=
        Option.isSome_iff_exists.mp (AList.lookup_isSome.mpr ((h.blocks b).mp hb))
      exact ⟨node₁, node₂, hb₁, hb₂, h.alike hb₁ hb₂⟩
    · left
      exact ⟨AList.lookup_eq_none.mpr hb, AList.lookup_eq_none.mpr fun hb' => hb ((h.blocks b).mpr hb')⟩
  have hall : ∀ b, dag₁.blueScore b = dag₂.blueScore b ∧
      dag₁.selectedParent b = dag₂.selectedParent b ∧
      ∀ x, x ∈ dag₁.blueSetOf b ↔ x ∈ dag₂.blueSetOf b := by
    intro b
    rw [blueScore, blueScore, blueSetOf, blueSetOf, selectedParent, selectedParent]
    rcases hcases b with ⟨hb₁, hb₂⟩ | ⟨node₁, node₂, hb₁, hb₂, hsame⟩
    · rw [hb₁, hb₂]
      exact ⟨rfl, rfl, fun x => Iff.rfl⟩
    · rw [hb₁, hb₂]
      exact ⟨hsame.score, hsame.selected, hsame.blueSet⟩
  have hscore : ∀ q, dag₁.blueScore q = dag₂.blueScore q := fun q => (hall q).1
  have hselected : dag₁.selectedParent = dag₂.selectedParent := funext fun b => (hall b).2.1
  have hkeys : ∀ q, q ∈ dag₁.nodes.keys ↔ q ∈ dag₂.nodes.keys := h.blocks
  have htip : dag₁.tip = dag₂.tip := by
    rw [tip, tip, hgen₁, hgen₂]
    apply heaviest_unique hscore
    intro q
    rw [List.mem_cons, List.mem_cons, hkeys]
  have hlength : dag₁.nodes.entries.length = dag₂.nodes.entries.length := by
    have hperm := (List.perm_ext_iff_of_nodup dag₁.nodes.keys_nodup dag₂.nodes.keys_nodup).mpr hkeys
    have hlen := hperm.length_eq
    simpa [AList.keys, List.keys] using hlen
  have hsegment : dag₁.segment = dag₂.segment := by
    funext b
    have hsort : ∀ l : List BlockId, l.insertionSort dag₁.topoLe = l.insertionSort dag₂.topoLe := by
      intro l
      have hsorted : (l.insertionSort dag₂.topoLe).Pairwise dag₁.topoLe := by
        apply (topoLe_sorted l).imp
        intro x y hle
        rwa [h.topoLe]
      apply sorted_unique (topoLe_sorted l) hsorted
      exact (List.perm_insertionSort _ l).trans (List.perm_insertionSort _ l).symm
    rw [segment, segment, hgen₁, hgen₂]
    rcases hcases b with ⟨hb₁, hb₂⟩ | ⟨node₁, node₂, hb₁, hb₂, hsame⟩
    · rw [hb₁, hb₂]
      rfl
    · simp only [hb₁, hb₂, Option.elim_some, hsame.blues, hsame.reds, hsort]
  refine ⟨?_, htip, hall⟩
  rw [order, order, hlength, htip, chainLoop_congr hselected, hsegment]

/-- The `add_block` calls of a list give block `b` the parent `x`. -/
def Names (blocks : List (BlockId × List BlockId)) (b x : BlockId) : Prop :=
  ∃ ps, (b, ps) ∈ blocks ∧ x ∈ ps

theorem feed_spec {blocks : List (BlockId × List BlockId)} (run : dag.feed blocks = .ok dag') :
    (∀ b, b ∈ dag'.nodes ↔ b ∈ dag.nodes ∨ ∃ x, Names blocks b x) ∧
      ∀ b x, x ∈ dag'.parents b ↔ x ∈ dag.parents b ∨ Names blocks b x := by
  induction blocks generalizing dag with
  | nil =>
    cases run
    simp [Names]
  | cons block blocks ih =>
    obtain ⟨id, ps⟩ := block
    rw [feed, List.foldlM_cons] at run
    obtain ⟨dag₁, hadd, run⟩ := bind_eq_ok.mp run
    obtain ⟨hblocks, hparents⟩ := ih run
    have hne : ∃ x, x ∈ ps := by
      cases ps with
      | nil =>
        unfold addBlock at hadd
        split at hadd
        · cases hadd
        · cases hadd
      | cons p ps => exact ⟨p, List.mem_cons_self⟩
    obtain ⟨hnew, _, node, rfl, rfl, _⟩ := addBlock_spec hadd
    have hnames : ∀ b x, Names ((id, node.parents) :: blocks) b x ↔
        (b = id ∧ x ∈ node.parents) ∨ Names blocks b x := by
      intro b x
      simp only [Names, List.mem_cons, Prod.mk.injEq]
      constructor
      · rintro ⟨ps, ⟨rfl, rfl⟩ | hps, hx⟩
        · exact Or.inl ⟨rfl, hx⟩
        · exact Or.inr ⟨ps, hps, hx⟩
      · rintro (⟨rfl, hx⟩ | ⟨ps, hps, hx⟩)
        · exact ⟨_, Or.inl ⟨rfl, rfl⟩, hx⟩
        · exact ⟨ps, Or.inr hps, hx⟩
    constructor
    · intro b
      simp only [hblocks, AList.mem_insert, hnames]
      constructor
      · rintro ((rfl | hb) | ⟨x, hx⟩)
        · obtain ⟨x, hx⟩ := hne
          exact Or.inr ⟨x, Or.inl ⟨rfl, hx⟩⟩
        · exact Or.inl hb
        · exact Or.inr ⟨x, Or.inr hx⟩
      · rintro (hb | ⟨x, ⟨rfl, _⟩ | hx⟩)
        · exact Or.inl (Or.inr hb)
        · exact Or.inl (Or.inl rfl)
        · exact Or.inr ⟨x, hx⟩
    · intro b x
      rw [hparents, hnames, parents_insert]
      by_cases hb : b = id
      · subst hb
        have hold : dag.parents b = [] := by
          rw [Dag.parents, hnew]
          rfl
        simp [hold]
      · simp [hb]

/-- The order is one that every node finds: whatever the order in which the same blocks come, and
in which each lists its parents, the blue scores, the blues, the selected parents, the tip and the
total order are the same. -/
theorem order_converges {blocks₁ blocks₂ : List (BlockId × List BlockId)}
    (run₁ : (Dag.new k genesis).feed blocks₁ = .ok dag₁)
    (run₂ : (Dag.new k genesis).feed blocks₂ = .ok dag₂)
    (hsame : ∀ b x, Names blocks₁ b x ↔ Names blocks₂ b x) :
    dag₁.order = dag₂.order ∧ dag₁.tip = dag₂.tip ∧ ∀ b, dag₁.blueScore b = dag₂.blueScore b ∧
      dag₁.selectedParent b = dag₂.selectedParent b ∧
      ∀ x, x ∈ dag₁.blueSetOf b ↔ x ∈ dag₂.blueSetOf b := by
  obtain ⟨hblocks₁, hparents₁⟩ := feed_spec run₁
  obtain ⟨hblocks₂, hparents₂⟩ := feed_spec run₂
  refine SameBlocks.converges ⟨Built.new.feed run₁, Built.new.feed run₂, fun b => ?_, fun b x => ?_⟩
  · rw [hblocks₁, hblocks₂]
    simp only [hsame]
  · rw [hparents₁, hparents₂, hsame]

/-- Two blocks on genesis come in two orders, and one on both names them in two orders. -/
theorem order_converges_diamond : ∃ dag₁ dag₂,
    (Dag.new 1 0).feed [(1, [0]), (2, [0]), (3, [1, 2])] = .ok dag₁ ∧
    (Dag.new 1 0).feed [(2, [0]), (1, [0]), (3, [2, 1])] = .ok dag₂ ∧
    dag₁.order = dag₂.order ∧ dag₁.tip = dag₂.tip ∧ ∀ b, dag₁.blueScore b = dag₂.blueScore b ∧
      dag₁.selectedParent b = dag₂.selectedParent b ∧
      ∀ x, x ∈ dag₁.blueSetOf b ↔ x ∈ dag₂.blueSetOf b := by
  have hrun₁ : returnsWith ((Dag.new 1 0).feed [(1, [0]), (2, [0]), (3, [1, 2])])
      (fun _ => true) = true := by
    decide +kernel
  have hrun₂ : returnsWith ((Dag.new 1 0).feed [(2, [0]), (1, [0]), (3, [2, 1])])
      (fun _ => true) = true := by
    decide +kernel
  obtain ⟨dag₁, run₁, _⟩ := returnsWith_iff.mp hrun₁
  obtain ⟨dag₂, run₂, _⟩ := returnsWith_iff.mp hrun₂
  refine ⟨dag₁, dag₂, run₁, run₂, order_converges run₁ run₂ fun b x => ?_⟩
  simp only [Names, List.mem_cons, Prod.mk.injEq, List.not_mem_nil, or_false]
  constructor
  · rintro ⟨ps, ⟨rfl, rfl⟩ | ⟨rfl, rfl⟩ | ⟨rfl, rfl⟩, hx⟩
    · exact ⟨_, Or.inr (Or.inl ⟨rfl, rfl⟩), hx⟩
    · exact ⟨_, Or.inl ⟨rfl, rfl⟩, hx⟩
    · exact ⟨_, Or.inr (Or.inr ⟨rfl, rfl⟩), by simpa [or_comm] using hx⟩
  · rintro ⟨ps, ⟨rfl, rfl⟩ | ⟨rfl, rfl⟩ | ⟨rfl, rfl⟩, hx⟩
    · exact ⟨_, Or.inr (Or.inl ⟨rfl, rfl⟩), hx⟩
    · exact ⟨_, Or.inl ⟨rfl, rfl⟩, hx⟩
    · exact ⟨_, Or.inr (Or.inr ⟨rfl, rfl⟩), by simpa [or_comm] using hx⟩

end Converge

end TaoDag.Prototype.Dag
