import TaoDag.Consensus.ChainState
import TaoDag.Consensus.Work
import TaoDag.Core.Blake3

namespace TaoDag.Consensus.ChainState

variable {blake3 : Bytes → Hash} {c c' : ChainState} {h : BlockHeader} {x : BlockId} {e parent : Entry}

/-- What `add_header` checks of a header on the stored `parent`. -/
structure Extends (c : ChainState) (parent : Entry) (h : BlockHeader) : Prop where
  height : h.height.toNat = parent.header.height.toNat + 1
  timestamp : parent.header.timestamp.toInt ≤ h.timestamp.toInt
  target : c.targetAfter h.prevHash = .ok h.target
  pow : c.pow h = true

theorem checkHeader_ok_iff : c.checkHeader parent h = .ok (.ok ()) ↔ Extends c parent h := by
  constructor
  · intro hrun
    obtain ⟨expected, hadd, hrun⟩ := bind_eq_ok.mp hrun
    have hexp := ((addU64_spec (C := False) False.elim).post hadd).1
    by_cases hh : h.height.toNat ≠ expected
    · rw [if_pos hh] at hrun
      cases hrun
    · rw [if_neg hh] at hrun
      by_cases ht : h.timestamp.toInt < parent.header.timestamp.toInt
      · rw [if_pos ht] at hrun
        cases hrun
      · rw [if_neg ht] at hrun
        obtain ⟨target, htarget, hrun⟩ := bind_eq_ok.mp hrun
        by_cases hne : h.target ≠ target
        · rw [if_pos hne] at hrun
          cases hrun
        · rw [if_neg hne] at hrun
          cases hpow : c.pow h with
          | false =>
            rw [hpow] at hrun
            cases hrun
          | true =>
            rw [not_not] at hh hne
            exact ⟨hh.trans hexp, not_lt.mp ht, hne ▸ htarget, hpow⟩
  · intro hx
    have hlt := h.height.isLt
    have hadd : addU64 parent.header.height.toNat 1 = .ok (parent.header.height.toNat + 1) := by
      rw [addU64, addUpTo, if_pos]
      rw [u64Max, ← hx.height]
      omega
    rw [checkHeader, hadd]
    change (if h.height.toNat ≠ parent.header.height.toNat + 1 then _ else _) = _
    rw [if_neg (not_not.mpr hx.height), if_neg (not_lt.mpr hx.timestamp), hx.target]
    change (if h.target ≠ h.target then _ else _) = _
    rw [if_neg (not_not.mpr rfl), hx.pow]
    rfl

/-- The chain with a header that `add_header` accepted on the stored `parent`. -/
structure Added (blake3 : Bytes → Hash) (c c' : ChainState) (parent : Entry) (h : BlockHeader)
    (status : BlockStatus) : Prop where
  new : c.blocks.lookup (h.id blake3) = none
  known : c.blocks.lookup h.prevHash = some parent
  follows : Extends c parent h
  blocks : c'.blocks =
    c.blocks.insert (h.id blake3) ⟨h, parent.cumulativeWork + workForTarget h.target⟩
  genesis : c'.genesis = c.genesis
  params : c'.params = c.params
  genesisTarget : c'.genesisTarget = c.genesisTarget
  pow : c'.pow = c.pow
  tip : ∃ t, c'.blocks.lookup c.tip = some t ∧
    (t.cumulativeWork < parent.cumulativeWork + workForTarget h.target ∧
        c'.tip = h.id blake3 ∧
        status = (if h.prevHash = c.tip then .extendedTip else .reorg c.tip (h.id blake3)) ∨
      parent.cumulativeWork + workForTarget h.target ≤ t.cumulativeWork ∧ c'.tip = c.tip ∧
        status = .sideChain)

/-- What `add_header` can do: refuse and change nothing, or accept. -/
theorem addHeader_cases {r : Except ChainError BlockStatus}
    (run : c.addHeader blake3 h = .ok (r, c')) :
    ((∃ e, r = .error e) ∧ c' = c) ∨
      ∃ status parent, r = .ok status ∧ Added blake3 c c' parent h status := by
  rw [addHeader] at run
  by_cases hknown : c.contains (h.id blake3) = true
  · rw [if_pos hknown] at run
    cases run
    exact Or.inl ⟨⟨_, rfl⟩, rfl⟩
  · rw [if_neg hknown] at run
    cases hp : c.blocks.lookup h.prevHash with
    | none =>
      simp only [hp] at run
      cases run
      exact Or.inl ⟨⟨_, rfl⟩, rfl⟩
    | some parent =>
      simp only [hp] at run
      obtain ⟨check, hcheck, run⟩ := bind_eq_ok.mp run
      cases check with
      | error e =>
        cases run
        exact Or.inl ⟨⟨_, rfl⟩, rfl⟩
      | ok u =>
        obtain ⟨work, hwork, run⟩ := bind_eq_ok.mp run
        obtain ⟨⟨status, d⟩, hins, run⟩ := bind_eq_ok.mp run
        cases run
        have hw : work = parent.cumulativeWork + workForTarget h.target := by
          unfold u256 at hwork
          split_ifs at hwork
          exact (Except.ok.inj hwork).symm
        subst hw
        obtain ⟨t, htip, hins⟩ := bind_eq_ok.mp hins
        have ht : (c.blocks.insert (h.id blake3)
            ⟨h, parent.cumulativeWork + workForTarget h.target⟩).lookup c.tip = some t :=
          (expect_spec (C := False) False.elim fun _ hsome => hsome).post htip
        have hnew : c.blocks.lookup (h.id blake3) = none := by
          rw [contains] at hknown
          exact Option.not_isSome_iff_eq_none.mp hknown
        have hfollows := checkHeader_ok_iff.mp hcheck
        by_cases hlt : t.cumulativeWork < parent.cumulativeWork + workForTarget h.target
        · rw [if_pos hlt] at hins
          cases hins
          exact Or.inr ⟨_, parent, rfl, hnew, hp, hfollows, rfl, rfl, rfl, rfl, rfl, t, ht,
            Or.inl ⟨hlt, rfl, rfl⟩⟩
        · rw [if_neg hlt] at hins
          cases hins
          exact Or.inr ⟨_, parent, rfl, hnew, hp, hfollows, rfl, rfl, rfl, rfl, rfl, t, ht,
            Or.inr ⟨not_lt.mp hlt, rfl, rfl⟩⟩

theorem added_of_ok {status : BlockStatus} (run : c.addHeader blake3 h = .ok (.ok status, c')) :
    ∃ parent, Added blake3 c c' parent h status := by
  rcases addHeader_cases run with ⟨⟨_, hr⟩, _⟩ | ⟨_, parent, hr, ha⟩
  · cases hr
  · cases hr
    exact ⟨parent, ha⟩

/-- A stored header on its parent: the checks it passed, and the work it adds. -/
def Child (c : ChainState) (e : Entry) : Prop :=
  ∃ parent, c.blocks.lookup e.header.prevHash = some parent ∧ Extends c parent e.header ∧
    e.cumulativeWork = parent.cumulativeWork + workForTarget e.header.target

/-- The header tree: every entry under its id, and on its parent unless it is the genesis. -/
structure Inv (blake3 : Bytes → Hash) (genesis : BlockHeader) (c : ChainState) : Prop where
  genesisId : c.genesis = genesis.id blake3
  isGenesis : genesis.isGenesis = true
  root : c.blocks.lookup c.genesis = some ⟨genesis, workForTarget genesis.target⟩
  id : ∀ {x e}, c.blocks.lookup x = some e → e.header.id blake3 = x
  child : ∀ {x e}, c.blocks.lookup x = some e → x ≠ c.genesis → Child c e

variable {genesis : BlockHeader} {status : BlockStatus}

/-- The genesis is the only entry at height 0. -/
theorem Inv.eq_genesis (inv : Inv blake3 genesis c) (he : c.blocks.lookup x = some e)
    (hg : e.header.isGenesis = true) : x = c.genesis := by
  by_contra hne
  obtain ⟨_, _, hx, _⟩ := inv.child he hne
  have hh := hx.height
  simp only [BlockHeader.isGenesis, Bool.and_eq_true, beq_iff_eq] at hg
  rw [hg.1] at hh
  simp at hh

/-- The walks of two chains agree from a header on whose ancestors they agree. -/
theorem Inv.recentLoop_congr (inv : Inv blake3 genesis c)
    (hsame : ∀ {y d}, c.blocks.lookup y = some d → d.header.height.toNat ≤ e.header.height.toNat →
      c'.blocks.lookup y = some d)
    (he : c.blocks.lookup x = some e) (count : Nat) (above : List BlockHeader) :
    c'.recentLoop count x above = c.recentLoop count x above := by
  have hwalk : ∀ count x d above, c.blocks.lookup x = some d →
      d.header.height.toNat ≤ e.header.height.toNat →
      c'.recentLoop count x above = c.recentLoop count x above := by
    intro count
    induction count with
    | zero => exact fun _ _ _ _ _ => rfl
    | succ count ih =>
      intro x d above hd hle
      rw [recentLoop, recentLoop, hsame hd hle, hd]
      simp only
      by_cases hg : d.header.isGenesis = true
      · rw [if_pos hg, if_pos hg]
      · rw [if_neg hg, if_neg hg]
        have hne : x ≠ c.genesis := by
          intro heq
          rw [heq, inv.root] at hd
          exact hg (Option.some.inj hd ▸ inv.isGenesis)
        obtain ⟨parent, hp, hx, _⟩ := inv.child hd hne
        have hh := hx.height
        exact ih _ parent _ hp (by omega)
  exact hwalk count x e above he le_rfl

/-- So do the targets they set. -/
theorem Inv.targetAfter_congr (inv : Inv blake3 genesis c) (hparams : c'.params = c.params)
    (htarget : c'.genesisTarget = c.genesisTarget)
    (hsame : ∀ {y d}, c.blocks.lookup y = some d → d.header.height.toNat ≤ e.header.height.toNat →
      c'.blocks.lookup y = some d)
    (he : c.blocks.lookup x = some e) : c'.targetAfter x = c.targetAfter x := by
  rw [targetAfter, targetAfter, hparams, htarget]
  simp only [recentHeaders, inv.recentLoop_congr hsame he]

theorem Extends.congr (hx : Extends c parent h) (hpow : c'.pow = c.pow)
    (htarget : c'.targetAfter h.prevHash = c.targetAfter h.prevHash) : Extends c' parent h :=
  ⟨hx.height, hx.timestamp, htarget.trans hx.target, hpow ▸ hx.pow⟩

theorem new_inv {params : DifficultyParams} {pow : BlockHeader → Bool}
    (run : ChainState.new blake3 genesis params pow = .ok c) :
    Inv blake3 genesis c ∧ c.tip = c.genesis ∧ c.params = params ∧ c.pow = pow ∧
      c.genesisTarget = genesis.target ∧
      ∀ x e, c.blocks.lookup x = some e → x = c.genesis := by
  obtain ⟨_, hassert, run⟩ := bind_eq_ok.mp run
  cases run
  have hgen := (assert_spec (C := False) False.elim).post hassert
  have hroot : (AList.singleton (genesis.id blake3) ⟨genesis, workForTarget genesis.target⟩ :
      BlockHashMap Entry).lookup (genesis.id blake3) =
        some ⟨genesis, workForTarget genesis.target⟩ := lookup_singleton.mpr ⟨rfl, rfl⟩
  have honly : ∀ x e, (AList.singleton (genesis.id blake3)
      ⟨genesis, workForTarget genesis.target⟩ : BlockHashMap Entry).lookup x = some e →
        x = genesis.id blake3 := fun x e he => (lookup_singleton.mp he).1
  refine ⟨⟨rfl, hgen, hroot, fun {x e} he => ?_, fun {x e} he hne => absurd (honly x e he) hne⟩,
    rfl, rfl, rfl, rfl, honly⟩
  have hx := honly x e he
  subst hx
  exact Option.some.inj (hroot.symm.trans he) ▸ rfl

theorem Added.lookup_self (ha : Added blake3 c c' parent h status) :
    c'.blocks.lookup (h.id blake3) =
      some ⟨h, parent.cumulativeWork + workForTarget h.target⟩ := by
  rw [ha.blocks, AList.lookup_insert]

theorem Added.lookup_of_ne (ha : Added blake3 c c' parent h status) (hx : x ≠ h.id blake3) :
    c'.blocks.lookup x = c.blocks.lookup x := by
  rw [ha.blocks, AList.lookup_insert_ne hx]

theorem Added.lookup_of_some (ha : Added blake3 c c' parent h status)
    (he : c.blocks.lookup x = some e) : c'.blocks.lookup x = some e := by
  rw [ha.lookup_of_ne, he]
  intro hx
  rw [hx, ha.new] at he
  cases he

theorem Added.cases (ha : Added blake3 c c' parent h status) (he : c'.blocks.lookup x = some e) :
    (x = h.id blake3 ∧ e = ⟨h, parent.cumulativeWork + workForTarget h.target⟩) ∨
      c.blocks.lookup x = some e := by
  by_cases hx : x = h.id blake3
  · rw [hx, ha.lookup_self] at he
    exact Or.inl ⟨hx, (Option.some.inj he).symm⟩
  · rw [ha.lookup_of_ne hx] at he
    exact Or.inr he

/-- Accepting a header changes no target that is already set. -/
theorem Added.targetAfter (ha : Added blake3 c c' parent h status) (inv : Inv blake3 genesis c)
    (he : c.blocks.lookup x = some e) : c'.targetAfter x = c.targetAfter x :=
  inv.targetAfter_congr ha.params ha.genesisTarget (fun hd _ => ha.lookup_of_some hd) he

theorem Added.inv (ha : Added blake3 c c' parent h status) (inv : Inv blake3 genesis c) :
    Inv blake3 genesis c' where
  genesisId := ha.genesis.trans inv.genesisId
  isGenesis := inv.isGenesis
  root := by
    rw [ha.genesis]
    exact ha.lookup_of_some inv.root
  id := by
    intro x e he
    rcases ha.cases he with ⟨rfl, rfl⟩ | he
    · rfl
    · exact inv.id he
  child := by
    intro x e he hne
    rw [ha.genesis] at hne
    rcases ha.cases he with ⟨_, rfl⟩ | he
    · exact ⟨parent, ha.lookup_of_some ha.known,
        ha.follows.congr ha.pow (ha.targetAfter inv ha.known), rfl⟩
    · obtain ⟨p, hp, hx, hw⟩ := inv.child he hne
      exact ⟨p, ha.lookup_of_some hp, hx.congr ha.pow (ha.targetAfter inv hp), hw⟩

/-- The headers from the genesis to `x`, by their parents. -/
inductive Path (c : ChainState) : BlockId → List BlockHeader → Prop
  | genesis {e : Entry} (stored : c.blocks.lookup c.genesis = some e) :
      Path c c.genesis [e.header]
  | step {x : BlockId} {e : Entry} {path : List BlockHeader} (stored : c.blocks.lookup x = some e)
      (ne : x ≠ c.genesis) (parent : Path c e.header.prevHash path) :
      Path c x (path ++ [e.header])

def pathWork (path : List BlockHeader) : Nat := (path.map fun h => workForTarget h.target).sum

/-- The cumulative work at `x`, 0 when `x` is not stored. -/
def workAt (c : ChainState) (x : BlockId) : Nat := (c.blocks.lookup x).elim 0 (·.cumulativeWork)

theorem workAt_of_lookup (he : c.blocks.lookup x = some e) : c.workAt x = e.cumulativeWork := by
  rw [workAt, he]
  rfl

theorem Inv.exists_path (inv : Inv blake3 genesis c) (he : c.blocks.lookup x = some e) :
    ∃ path, c.Path x path ∧ e.cumulativeWork = pathWork path := by
  induction hn : e.header.height.toNat generalizing x e with
  | zero =>
    have hx : x = c.genesis := by
      by_contra hne
      obtain ⟨parent, _, hx, _⟩ := inv.child he hne
      have hh := hx.height
      omega
    subst hx
    refine ⟨_, .genesis he, ?_⟩
    rw [inv.root] at he
    cases he
    simp [pathWork]
  | succ n ih =>
    by_cases hx : x = c.genesis
    · subst hx
      refine ⟨_, .genesis he, ?_⟩
      rw [inv.root] at he
      cases he
      simp [pathWork]
    · obtain ⟨parent, hp, hfollows, hw⟩ := inv.child he hx
      have hh := hfollows.height
      obtain ⟨path, hpath, hsum⟩ := ih hp (by omega)
      refine ⟨_, .step he hx hpath, ?_⟩
      rw [hw, hsum, pathWork, pathWork, List.map_append, List.sum_append]
      simp

/-- A header on the path to `x` is `x` or has less work. -/
theorem Inv.work_lt_of_path (inv : Inv blake3 genesis c) {path : List BlockHeader}
    (hpath : c.Path x path) {y : BlockHeader} (hy : y ∈ path) :
    y.id blake3 = x ∨ c.workAt (y.id blake3) < c.workAt x := by
  induction hpath with
  | genesis he =>
    rw [List.mem_singleton.mp hy]
    exact Or.inl (inv.id he)
  | @step x e path he hne _ ih =>
    rcases List.mem_append.mp hy with hy | hy
    · obtain ⟨parent, hp, _, hw⟩ := inv.child he hne
      have hpos := workForTarget_pos e.header.target
      rw [workAt_of_lookup hp] at ih
      rw [workAt_of_lookup he, hw]
      rcases ih hy with heq | hlt
      · rw [heq, workAt_of_lookup hp]
        exact Or.inr (by omega)
      · exact Or.inr (by omega)
    · rw [List.mem_singleton.mp hy]
      exact Or.inl (inv.id he)

theorem Inv.mem_path (inv : Inv blake3 genesis c) {path : List BlockHeader}
    (hpath : c.Path x path) : ∃ y ∈ path, y.id blake3 = x := by
  cases hpath with
  | genesis he => exact ⟨_, List.mem_singleton_self _, inv.id he⟩
  | step he _ _ => exact ⟨_, List.mem_append_right _ (List.mem_singleton_self _), inv.id he⟩

theorem Path.of_ne {path : List BlockHeader} (hpath : c.Path x path) (hne : x ≠ c.genesis) :
    ∃ e rest, c.blocks.lookup x = some e ∧ path = rest ++ [e.header] ∧
      c.Path e.header.prevHash rest := by
  cases hpath with
  | genesis _ => exact absurd rfl hne
  | step he _ hrest => exact ⟨_, _, he, rfl, hrest⟩

/-- Accepting a header leaves the paths of the others. -/
theorem Added.path (ha : Added blake3 c c' parent h status) {path : List BlockHeader}
    (hpath : c.Path x path) : c'.Path x path := by
  induction hpath with
  | genesis he =>
    rw [← ha.genesis]
    exact .genesis (ha.genesis ▸ ha.lookup_of_some he)
  | step he hne _ ih => exact .step (ha.lookup_of_some he) (ha.genesis ▸ hne) ih

/-- A header accepted on the tip is the new tip. -/
theorem Added.tip_of_child (ha : Added blake3 c c' parent h status) (hp : h.prevHash = c.tip) :
    c'.tip = h.id blake3 := by
  obtain ⟨t, ht, ⟨_, htip, _⟩ | ⟨hle, _, _⟩⟩ := ha.tip
  · exact htip
  · have hparent := ha.lookup_of_some ha.known
    rw [hp, ht] at hparent
    cases hparent
    have hpos := workForTarget_pos h.target
    omega

/-- A new header that its stored parent admits is accepted, when the work has room for it. -/
theorem addHeader_of_extends (hnew : c.blocks.lookup (h.id blake3) = none)
    (hp : c.blocks.lookup h.prevHash = some parent) (hx : Extends c parent h)
    (hroom : parent.cumulativeWork + workForTarget h.target ≤ u256Max)
    (htip : ∃ t, c.blocks.lookup c.tip = some t) :
    ∃ status c', c.addHeader blake3 h = .ok (.ok status, c') := by
  obtain ⟨t, ht⟩ := htip
  have hne : c.tip ≠ h.id blake3 := by
    intro heq
    rw [heq, hnew] at ht
    cases ht
  have hcontains : ¬c.contains (h.id blake3) = true := by
    rw [contains, hnew]
    exact Bool.false_ne_true
  have hlookup : (c.blocks.insert (h.id blake3)
      ⟨h, parent.cumulativeWork + workForTarget h.target⟩).lookup c.tip = some t := by
    rw [AList.lookup_insert_ne hne, ht]
  rw [addHeader, if_neg hcontains]
  simp only [hp, checkHeader_ok_iff.mpr hx, bind, Except.bind, u256, if_pos hroom, insertHeader,
    tipEntry, hlookup, expect]
  by_cases hlt : t.cumulativeWork < parent.cumulativeWork + workForTarget h.target
  · rw [if_pos hlt]
    exact ⟨_, _, rfl⟩
  · rw [if_neg hlt]
    exact ⟨_, _, rfl⟩

/-- A new header that its stored parent admits is not refused. -/
theorem verdict_of_extends {r : Except ChainError BlockStatus}
    (hnew : c.contains (h.id blake3) = false) (hp : c.blocks.lookup h.prevHash = some parent)
    (hx : Extends c parent h) (run : c.addHeader blake3 h = .ok (r, c')) :
    ∃ status, r = .ok status := by
  rw [addHeader, if_neg (Bool.eq_false_iff.mp hnew)] at run
  simp only [hp] at run
  obtain ⟨check, hcheck, run⟩ := bind_eq_ok.mp run
  cases (checkHeader_ok_iff.mpr hx).symm.trans hcheck
  obtain ⟨work, _, run⟩ := bind_eq_ok.mp run
  obtain ⟨⟨status, d⟩, _, run⟩ := bind_eq_ok.mp run
  cases run
  exact ⟨status, rfl⟩

/-- What the arithmetic of `add_header` needs of a header on the stored `parent`: its height has a
successor, the target after it is computed, and the work of a header that it admits has room. -/
structure Checkable (blake3 : Bytes → Hash) (c : ChainState) (parent : Entry) (h : BlockHeader) :
    Prop where
  height : parent.header.height.toNat < u64Max
  target : h.height.toNat = parent.header.height.toNat + 1 →
    parent.header.timestamp.toInt ≤ h.timestamp.toInt → ∃ t, c.targetAfter h.prevHash = .ok t
  work : Extends c parent h → parent.cumulativeWork + workForTarget h.target ≤ u256Max
  tip : Extends c parent h → c.tip = h.id blake3 ∨ ∃ t, c.blocks.lookup c.tip = some t

theorem checkHeader_returns_iff : (∃ r, c.checkHeader parent h = .ok r) ↔
    parent.header.height.toNat < u64Max ∧ (h.height.toNat = parent.header.height.toNat + 1 →
      parent.header.timestamp.toInt ≤ h.timestamp.toInt →
        ∃ t, c.targetAfter h.prevHash = .ok t) := by
  constructor
  · intro ⟨r, hr⟩
    obtain ⟨expected, hadd, hr⟩ := bind_eq_ok.mp hr
    obtain ⟨rfl, hle⟩ := (addU64_spec (C := False) False.elim).post hadd
    refine ⟨hle, fun hheight htime => ?_⟩
    rw [if_neg (not_not.mpr hheight), if_neg (not_lt.mpr htime)] at hr
    obtain ⟨t, ht, _⟩ := bind_eq_ok.mp hr
    exact ⟨t, ht⟩
  · intro ⟨hlt, htarget⟩
    have hadd : addU64 parent.header.height.toNat 1 = .ok (parent.header.height.toNat + 1) :=
      if_pos hlt
    simp only [checkHeader, hadd, bind, Except.bind]
    by_cases hheight : h.height.toNat = parent.header.height.toNat + 1
    · rw [if_neg (not_not.mpr hheight)]
      by_cases htime : h.timestamp.toInt < parent.header.timestamp.toInt
      · rw [if_pos htime]
        exact ⟨_, rfl⟩
      · obtain ⟨t, ht⟩ := htarget hheight (not_lt.mp htime)
        simp only [if_neg htime, ht]
        split_ifs
        all_goals exact ⟨_, rfl⟩
    · rw [if_pos hheight]
      exact ⟨_, rfl⟩

/-- `add_header` returns exactly when it knows the header, or its parent is unknown or has the
arithmetic of its checks in range. -/
theorem addHeader_returns_iff : (∃ r, c.addHeader blake3 h = .ok r) ↔
    (c.contains (h.id blake3) = false → ∀ parent, c.blocks.lookup h.prevHash = some parent →
      Checkable blake3 c parent h) := by
  by_cases hknown : c.contains (h.id blake3) = true
  · rw [addHeader, if_pos hknown, hknown]
    exact ⟨fun _ h => (by cases h), fun _ => ⟨_, rfl⟩⟩
  · rw [addHeader, if_neg hknown, Bool.eq_false_iff.mpr hknown]
    cases hp : c.blocks.lookup h.prevHash with
    | none => exact ⟨fun _ _ _ h => (by cases h), fun _ => ⟨_, rfl⟩⟩
    | some parent =>
      simp only [Option.some.injEq, forall_const, forall_eq']
      constructor
      · intro ⟨r, hr⟩
        obtain ⟨check, hcheck, hr⟩ := bind_eq_ok.mp hr
        obtain ⟨hheight, htarget⟩ := checkHeader_returns_iff.mp ⟨check, hcheck⟩
        have hroom (hx : Extends c parent h) :
            parent.cumulativeWork + workForTarget h.target ≤ u256Max ∧
              (c.tip = h.id blake3 ∨ ∃ t, c.blocks.lookup c.tip = some t) := by
          cases (checkHeader_ok_iff.mpr hx).symm.trans hcheck
          obtain ⟨work, hwork, hr⟩ := bind_eq_ok.mp hr
          obtain ⟨⟨status, d⟩, hins, _⟩ := bind_eq_ok.mp hr
          obtain ⟨t, htip, _⟩ := bind_eq_ok.mp hins
          have ht := (expect_spec (C := False) False.elim fun _ hsome => hsome).post htip
          constructor
          · unfold u256 at hwork
            split_ifs at hwork with hle
            exact hle
          · by_cases heq : c.tip = h.id blake3
            · exact Or.inl heq
            · rw [AList.lookup_insert_ne heq] at ht
              exact Or.inr ⟨t, ht⟩
        exact ⟨hheight, htarget, fun hx => (hroom hx).1, fun hx => (hroom hx).2⟩
      · intro hc
        obtain ⟨check, hcheck⟩ := checkHeader_returns_iff.mpr ⟨hc.height, hc.target⟩
        cases check with
        | error e => exact ⟨_, bind_eq_ok.mpr ⟨_, hcheck, rfl⟩⟩
        | ok u =>
          have hx := checkHeader_ok_iff.mp hcheck
          have htip : ∃ t, (c.blocks.insert (h.id blake3)
              ⟨h, parent.cumulativeWork + workForTarget h.target⟩).lookup c.tip = some t := by
            rcases hc.tip hx with heq | ⟨t, ht⟩
            · rw [heq]
              exact ⟨_, AList.lookup_insert _⟩
            · by_cases heq : c.tip = h.id blake3
              · rw [heq]
                exact ⟨_, AList.lookup_insert _⟩
              · rw [AList.lookup_insert_ne heq]
                exact ⟨t, ht⟩
          obtain ⟨t, ht⟩ := htip
          simp only [hcheck, bind, Except.bind, u256, if_pos (hc.work hx), insertHeader, tipEntry,
            ht, expect]
          split_ifs
          all_goals exact ⟨_, rfl⟩

/-- A sequence of `add_header` calls on a new chain, with the headers it stores in the order in
which they came. -/
inductive Run (blake3 : Bytes → Hash) (genesis : BlockHeader) (params : DifficultyParams)
    (pow : BlockHeader → Bool) : List BlockHeader → List BlockHeader → ChainState → Prop
  | new {c : ChainState} (run : ChainState.new blake3 genesis params pow = .ok c) :
      Run blake3 genesis params pow [] [genesis] c
  | accepted {calls stored : List BlockHeader} {c c' : ChainState} {h : BlockHeader}
      {status : BlockStatus} (before : Run blake3 genesis params pow calls stored c)
      (run : c.addHeader blake3 h = .ok (.ok status, c')) :
      Run blake3 genesis params pow (calls ++ [h]) (stored ++ [h]) c'
  | rejected {calls stored : List BlockHeader} {c c' : ChainState} {h : BlockHeader}
      {err : ChainError} (before : Run blake3 genesis params pow calls stored c)
      (run : c.addHeader blake3 h = .ok (.error err, c')) :
      Run blake3 genesis params pow (calls ++ [h]) stored c'

/-- The tip is the first of the stored headers among those with the most work. -/
def FirstHeaviest (blake3 : Bytes → Hash) (stored : List BlockHeader) (c : ChainState) : Prop :=
  ∃ before tip after, stored = before ++ tip :: after ∧ tip.id blake3 = c.tip ∧
    (∀ y ∈ before, c.workAt (y.id blake3) < c.workAt c.tip) ∧
    ∀ y ∈ after, c.workAt (y.id blake3) ≤ c.workAt c.tip

/-- What a run has reached: the tree, its headers in order, and the tip. -/
structure Reached (blake3 : Bytes → Hash) (genesis : BlockHeader) (params : DifficultyParams)
    (pow : BlockHeader → Bool) (stored : List BlockHeader) (c : ChainState) : Prop
    extends Inv blake3 genesis c where
  params : c.params = params
  pow : c.pow = pow
  genesisTarget : c.genesisTarget = genesis.target
  mem : ∀ h ∈ stored, ∃ e, c.blocks.lookup (h.id blake3) = some e ∧ e.header = h
  all : ∀ {x e}, c.blocks.lookup x = some e → e.header ∈ stored
  distinct : (stored.map fun h => h.id blake3).Nodup
  heaviest : FirstHeaviest blake3 stored c

variable {params : DifficultyParams} {pow : BlockHeader → Bool} {calls stored : List BlockHeader}

theorem new_reached (run : ChainState.new blake3 genesis params pow = .ok c) :
    Reached blake3 genesis params pow [genesis] c := by
  obtain ⟨inv, htip, hparams, hpow, htarget, honly⟩ := new_inv run
  refine ⟨inv, hparams, hpow, htarget, fun h hh => ?_, fun {x e} he => ?_, by simp,
    ⟨[], genesis, [], rfl, inv.genesisId ▸ htip ▸ rfl, by simp, by simp⟩⟩
  · rw [List.mem_singleton.mp hh]
    exact ⟨_, inv.genesisId ▸ inv.root, rfl⟩
  · rw [honly x e he, inv.root] at he
    cases he
    exact List.mem_singleton_self _

theorem Reached.work_le (hr : Reached blake3 genesis params pow stored c)
    (he : c.blocks.lookup x = some e) : c.workAt x ≤ c.workAt c.tip := by
  obtain ⟨before, tip, after, hsplit, htip, hbefore, hafter⟩ := hr.heaviest
  have hmem := hr.all he
  rw [hsplit, List.mem_append, List.mem_cons] at hmem
  rw [← hr.id he]
  rcases hmem with hmem | hmem | hmem
  · exact (hbefore _ hmem).le
  · rw [hmem, htip]
  · exact hafter _ hmem

theorem Reached.tip_mem (hr : Reached blake3 genesis params pow stored c) :
    ∃ e, c.blocks.lookup c.tip = some e := by
  obtain ⟨before, tip, after, hsplit, htip, _⟩ := hr.heaviest
  obtain ⟨e, he, _⟩ := hr.mem tip (by simp [hsplit])
  exact ⟨e, htip ▸ he⟩

theorem Added.workAt (ha : Added blake3 c c' parent h status) (he : c.blocks.lookup x = some e) :
    c'.workAt x = c.workAt x := by
  rw [workAt_of_lookup he, workAt_of_lookup (ha.lookup_of_some he)]

theorem Reached.add (hr : Reached blake3 genesis params pow stored c)
    (ha : Added blake3 c c' parent h status) :
    Reached blake3 genesis params pow (stored ++ [h]) c' := by
  have hold : ∀ y ∈ stored, c'.workAt (y.id blake3) = c.workAt (y.id blake3) := by
    intro y hy
    obtain ⟨e, he, _⟩ := hr.mem y hy
    exact ha.workAt he
  obtain ⟨tipEntry, htipEntry⟩ := hr.tip_mem
  have htipWork : c'.workAt c.tip = c.workAt c.tip := ha.workAt htipEntry
  refine ⟨ha.inv hr.toInv, ha.params.trans hr.params, ha.pow.trans hr.pow,
    ha.genesisTarget.trans hr.genesisTarget, fun y hy => ?_, fun {x e} he => ?_, ?_, ?_⟩
  · rcases List.mem_append.mp hy with hy | hy
    · obtain ⟨e, he, hh⟩ := hr.mem y hy
      exact ⟨e, ha.lookup_of_some he, hh⟩
    · rw [List.mem_singleton.mp hy]
      exact ⟨_, ha.lookup_self, rfl⟩
  · rcases ha.cases he with ⟨_, rfl⟩ | he
    · exact List.mem_append_right _ (List.mem_singleton_self _)
    · exact List.mem_append_left _ (hr.all he)
  · rw [List.map_append, List.nodup_append]
    refine ⟨hr.distinct, by simp, fun a ha' b hb heq => ?_⟩
    obtain ⟨y, hy, rfl⟩ := List.mem_map.mp ha'
    obtain ⟨e, he, _⟩ := hr.mem y hy
    rw [List.map_singleton, List.mem_singleton] at hb
    rw [heq, hb, ha.new] at he
    cases he
  · obtain ⟨t, ht, hcase⟩ := ha.tip
    have hself : c'.workAt (h.id blake3) = parent.cumulativeWork + workForTarget h.target :=
      workAt_of_lookup ha.lookup_self
    rcases hcase with ⟨hlt, htip, _⟩ | ⟨hle, htip, _⟩
    · refine ⟨stored, h, [], rfl, htip.symm, fun y hy => ?_, by simp⟩
      obtain ⟨e, he, _⟩ := hr.mem y hy
      have hmax := hr.work_le he
      rw [hold y hy, htip, hself]
      rw [← workAt_of_lookup ht, htipWork] at hlt
      omega
    · obtain ⟨before, tip, after, hsplit, htipId, hbefore, hafter⟩ := hr.heaviest
      refine ⟨before, tip, after ++ [h], by simp [hsplit], htipId.trans htip.symm,
        fun y hy => ?_, fun y hy => ?_⟩
      · rw [htip, htipWork, hold y (by simp [hsplit, hy])]
        exact hbefore y hy
      · rw [htip, htipWork]
        rcases List.mem_append.mp hy with hy | hy
        · rw [hold y (by simp [hsplit, hy])]
          exact hafter y hy
        · rw [List.mem_singleton.mp hy, hself]
          rw [← workAt_of_lookup ht, htipWork] at hle
          exact hle

theorem Run.reached (run : Run blake3 genesis params pow calls stored c) :
    Reached blake3 genesis params pow stored c := by
  induction run with
  | new hnew => exact new_reached hnew
  | accepted _ hadd ih =>
    obtain ⟨_, ha⟩ := added_of_ok hadd
    exact ih.add ha
  | rejected _ hadd ih =>
    rcases addHeader_cases hadd with ⟨_, hc⟩ | ⟨_, _, hr, _⟩
    · exact hc ▸ ih
    · cases hr

/-- When the tip moves to a header whose parent is another one, the old tip is not on its path:
it has at least the work of every stored header, and work grows along a path. -/
theorem Added.off_path (ha : Added blake3 c c' parent h status)
    (hr : Reached blake3 genesis params pow stored c) (hne : h.prevHash ≠ c.tip)
    {path : List BlockHeader} (hpath : c'.Path (h.id blake3) path) {y : BlockHeader}
    (hy : y ∈ path) : y.id blake3 ≠ c.tip := by
  intro htip
  obtain ⟨t, ht⟩ := hr.tip_mem
  have hnew : h.id blake3 ≠ c.tip := by
    intro heq
    rw [← heq, ha.new] at ht
    cases ht
  have hgen : h.id blake3 ≠ c.genesis := by
    intro heq
    have hroot := hr.root
    rw [← heq, ha.new] at hroot
    cases hroot
  obtain ⟨e, q, he, rfl, hrest⟩ := hpath.of_ne (ha.genesis ▸ hgen)
  rw [ha.lookup_self] at he
  cases he
  rcases List.mem_append.mp hy with hy | hy
  · have hmax := hr.work_le ha.known
    have hknown := ha.workAt ha.known
    have hold := ha.workAt ht
    rcases (ha.inv hr.toInv).work_lt_of_path hrest hy with heq | hlt
    · exact hne (heq.symm.trans htip)
    · rw [htip] at hlt
      change c'.workAt c.tip < c'.workAt h.prevHash at hlt
      omega
  · rw [List.mem_singleton.mp hy] at htip
    exact hnew htip

/-- What the status of an accepted header says about the tip. -/
theorem Added.status_iff (ha : Added blake3 c c' parent h status)
    (hr : Reached blake3 genesis params pow stored c) :
    (status = .extendedTip ↔ c'.tip ≠ c.tip ∧ h.prevHash = c.tip) ∧
      ∀ oldTip newTip, status = .reorg oldTip newTip ↔ c'.tip ≠ c.tip ∧
        (oldTip = c.tip ∧ newTip = c'.tip) ∧
        ∀ path, c'.Path c'.tip path → ∀ y ∈ path, y.id blake3 ≠ c.tip := by
  obtain ⟨t, ht⟩ := hr.tip_mem
  have hnew : h.id blake3 ≠ c.tip := by
    intro heq
    rw [← heq, ha.new] at ht
    cases ht
  obtain ⟨_, _, ⟨_, htip, hstatus⟩ | ⟨_, htip, hstatus⟩⟩ := ha.tip
  · by_cases hp : h.prevHash = c.tip
    · rw [if_pos hp] at hstatus
      refine ⟨iff_of_true hstatus ⟨htip ▸ hnew, hp⟩, fun o n => iff_of_false ?_ ?_⟩
      · rw [hstatus]
        exact BlockStatus.noConfusion
      · rintro ⟨_, _, hoff⟩
        have inv' := ha.inv hr.toInv
        obtain ⟨q, hq, _⟩ := inv'.exists_path (ha.lookup_of_some ht)
        obtain ⟨y, hy, hyid⟩ := inv'.mem_path hq
        have hgen : h.id blake3 ≠ c'.genesis := by
          intro heq
          have hroot := hr.root
          rw [← ha.genesis, ← heq, ha.new] at hroot
          cases hroot
        have hfull : c'.Path c'.tip (q ++ [h]) := by
          rw [htip]
          exact .step ha.lookup_self hgen (hp ▸ hq)
        exact hoff _ hfull y (List.mem_append_left _ hy) hyid
    · rw [if_neg hp] at hstatus
      refine ⟨iff_of_false ?_ fun h => hp h.2, fun o n => ?_⟩
      · rw [hstatus]
        exact BlockStatus.noConfusion
      · rw [hstatus, htip]
        constructor
        · intro h
          cases h
          exact ⟨hnew, ⟨rfl, rfl⟩, fun path hpath y hy => ha.off_path hr hp hpath hy⟩
        · rintro ⟨_, ⟨rfl, rfl⟩, _⟩
          rfl
  · refine ⟨iff_of_false ?_ fun h => h.1 htip, fun o n => iff_of_false ?_ fun h => h.1 htip⟩
    · rw [hstatus]
      exact BlockStatus.noConfusion
    · rw [hstatus]
      exact BlockStatus.noConfusion

/-- What one call of `add_header` says and does: a rejection changes nothing, and the status of
an accepted header tells how the tip moved. -/
structure Answers (blake3 : Bytes → Hash) (c c' : ChainState) (h : BlockHeader)
    (r : Except ChainError BlockStatus) : Prop where
  rejected : ∀ err, r = .error err → c' = c
  extendedTip : r = .ok .extendedTip ↔ c'.tip ≠ c.tip ∧ h.id blake3 = c'.tip ∧ h.prevHash = c.tip
  reorg : ∀ oldTip newTip, r = .ok (.reorg oldTip newTip) ↔ c'.tip ≠ c.tip ∧
    (oldTip = c.tip ∧ newTip = c'.tip) ∧
    ∀ path, c'.Path c'.tip path → ∀ y ∈ path, y.id blake3 ≠ c.tip

theorem Reached.answers (hr : Reached blake3 genesis params pow stored c)
    {r : Except ChainError BlockStatus} (run : c.addHeader blake3 h = .ok (r, c')) :
    Answers blake3 c c' h r := by
  rcases addHeader_cases run with ⟨⟨err, rfl⟩, rfl⟩ | ⟨status, parent, rfl, ha⟩
  · refine ⟨fun _ _ => rfl, iff_of_false ?_ fun h => h.1 rfl, fun o n =>
      iff_of_false ?_ fun h => h.1 rfl⟩
    · intro h
      cases h
    · intro h
      cases h
  · obtain ⟨hext, hreorg⟩ := ha.status_iff hr
    refine ⟨fun err h => (by cases h), ?_, fun o n => ?_⟩
    · rw [Except.ok.injEq, hext]
      refine and_congr_right fun hmoved => (and_iff_right ?_).symm
      obtain ⟨_, _, ⟨_, htip, _⟩ | ⟨_, htip, _⟩⟩ := ha.tip
      · exact htip.symm
      · exact absurd htip hmoved
    · rw [Except.ok.injEq]
      exact hreorg o n

/-- The tree that any calls of `add_header` build: each header on its parent, with the height,
the timestamp, the target and the PoW that the parent's chain demands; cumulative work as the sum
over the path; the tip as the first of the heaviest headers; and what the next call does. -/
theorem chainState_invariant (run : Run blake3 genesis params pow calls stored c) :
    (∀ x e, c.blocks.lookup x = some e → x ≠ c.genesis → ∃ parent,
      c.blocks.lookup e.header.prevHash = some parent ∧ Extends c parent e.header) ∧
    (∀ x e, c.blocks.lookup x = some e →
      ∃ path, c.Path x path ∧ e.cumulativeWork = pathWork path) ∧
    (∀ x, (∃ e, c.blocks.lookup x = some e) ↔ x ∈ stored.map fun h => h.id blake3) ∧
    (c.params = params ∧ c.genesisTarget = genesis.target ∧ c.pow = pow) ∧
    FirstHeaviest blake3 stored c ∧
    ∀ h r c', c.addHeader blake3 h = .ok (r, c') → Answers blake3 c c' h r := by
  have hr := run.reached
  refine ⟨fun x e he hne => ?_, fun x e he => hr.exists_path he, fun x => ?_,
    ⟨hr.params, hr.genesisTarget, hr.pow⟩, hr.heaviest, fun h r c' hrun => hr.answers hrun⟩
  · obtain ⟨parent, hp, hx, _⟩ := hr.child he hne
    exact ⟨parent, hp, hx⟩
  · rw [List.mem_map]
    constructor
    · rintro ⟨e, he⟩
      exact ⟨_, hr.all he, hr.id he⟩
    · rintro ⟨h, hh, rfl⟩
      obtain ⟨e, he, _⟩ := hr.mem h hh
      exact ⟨e, he⟩

section Order

/-- No header of the list comes before its parent. -/
def ParentsFirst (blake3 : Bytes → Hash) (calls : List BlockHeader) : Prop :=
  calls.Pairwise fun h y => y.id blake3 ≠ h.prevHash

/-- No two headers of the list have one id. -/
def CollisionFree (blake3 : Bytes → Hash) (calls : List BlockHeader) : Prop :=
  ∀ h ∈ calls, ∀ y ∈ calls, h.id blake3 = y.id blake3 → h = y

/-- The stored headers are the genesis and headers that were submitted. -/
theorem Run.stored_subset (run : Run blake3 genesis params pow calls stored c) :
    ∀ h ∈ stored, h = genesis ∨ h ∈ calls := by
  induction run with
  | new _ => exact fun h hh => Or.inl (List.mem_singleton.mp hh)
  | accepted _ _ ih =>
    intro h hh
    rcases List.mem_append.mp hh with hh | hh
    · exact (ih h hh).imp_right (List.mem_append_left _)
    · exact Or.inr (List.mem_append_right _ hh)
  | rejected _ _ ih => exact fun h hh => (ih h hh).imp_right (List.mem_append_left _)

/-- When parents come first, a submitted header that its parent's chain admits is stored: it was
checked against that very chain. -/
theorem Run.complete (run : Run blake3 genesis params pow calls stored c)
    (horder : ParentsFirst blake3 calls) {h : BlockHeader} (hh : h ∈ calls) {parent : Entry}
    (hp : c.blocks.lookup h.prevHash = some parent) (hx : Extends c parent h) :
    ∃ e, c.blocks.lookup (h.id blake3) = some e := by
  induction run generalizing h parent with
  | new _ => cases hh
  | @accepted calls stored c c' y status before hadd ih =>
    obtain ⟨hbefore, _, hlast⟩ := List.pairwise_append.mp horder
    rcases addHeader_cases hadd with ⟨⟨_, hr⟩, _⟩ | ⟨_, q, _, ha⟩
    · cases hr
    · rcases List.mem_append.mp hh with hh | hh
      · have hne : h.prevHash ≠ y.id blake3 :=
          (hlast h hh y (List.mem_singleton_self y)).symm
        rw [ha.lookup_of_ne hne] at hp
        have htarget := ha.targetAfter before.reached.toInv hp
        obtain ⟨e, he⟩ := ih hbefore hh hp (hx.congr ha.pow.symm htarget.symm)
        exact ⟨e, ha.lookup_of_some he⟩
      · rw [List.mem_singleton.mp hh]
        exact ⟨_, ha.lookup_self⟩
  | @rejected calls stored c c' y err before hadd ih =>
    obtain ⟨hbefore, _, _⟩ := List.pairwise_append.mp horder
    rcases addHeader_cases hadd with ⟨_, rfl⟩ | ⟨_, _, hr, _⟩
    · rcases List.mem_append.mp hh with hh | hh
      · exact ih hbefore hh hp hx
      · -- the header itself: a parent that admits it leaves only `Duplicate`
        rw [List.mem_singleton.mp hh] at hp hx ⊢
        by_contra hnone
        have hcontains : c'.contains (y.id blake3) = false := by
          rw [contains, Option.eq_none_iff_forall_ne_some.mpr fun e he => hnone ⟨e, he⟩]
          rfl
        rw [addHeader] at hadd
        simp only [hcontains, hp, Bool.false_eq_true, if_false] at hadd
        obtain ⟨check, hcheck, hadd⟩ := bind_eq_ok.mp hadd
        rw [checkHeader_ok_iff.mpr hx] at hcheck
        cases hcheck
        obtain ⟨work, _, hadd⟩ := bind_eq_ok.mp hadd
        obtain ⟨⟨_, _⟩, _, hadd⟩ := bind_eq_ok.mp hadd
        cases hadd
    · cases hr

variable {calls₁ calls₂ stored₁ stored₂ : List BlockHeader} {c₁ c₂ : ChainState}

/-- What one run has stored, the other has, by induction on the height. -/
theorem Run.lookup_of_lookup (run₁ : Run blake3 genesis params pow calls₁ stored₁ c₁)
    (run₂ : Run blake3 genesis params pow calls₂ stored₂ c₂)
    (hsub : ∀ h ∈ calls₁, h ∈ calls₂) (horder : ParentsFirst blake3 calls₂)
    (hfree : CollisionFree blake3 calls₂) {x : BlockId} {e : Entry}
    (he : c₁.blocks.lookup x = some e) : c₂.blocks.lookup x = some e := by
  have r₁ := run₁.reached
  have r₂ := run₂.reached
  have hgen : c₁.genesis = c₂.genesis := r₁.genesisId.trans r₂.genesisId.symm
  induction hn : e.header.height.toNat using Nat.strong_induction_on generalizing x e with
  | _ n ih =>
    by_cases hx : x = c₁.genesis
    · rw [hx, r₁.root] at he
      rw [hx, hgen, r₂.root, he]
    · obtain ⟨parent, hp, hfollows, hw⟩ := r₁.child he hx
      have hh := hfollows.height
      have hp₂ := ih _ (by omega) hp rfl
      have htarget : c₂.targetAfter e.header.prevHash = c₁.targetAfter e.header.prevHash :=
        r₁.targetAfter_congr (r₂.params.trans r₁.params.symm)
          (r₂.genesisTarget.trans r₁.genesisTarget.symm)
          (fun {y d} hd hle => ih _ (by omega) hd rfl) hp
      have hgenesis : ∀ {d : Entry}, d.header.id blake3 = x → d.header ≠ genesis := by
        intro d hd heq
        rw [heq] at hd
        exact hx (hd.symm.trans r₁.genesisId.symm)
      have hid := r₁.id he
      have hcalls : e.header ∈ calls₂ :=
        hsub _ ((run₁.stored_subset _ (r₁.all he)).resolve_left (hgenesis hid))
      obtain ⟨e₂, he₂⟩ := run₂.complete horder hcalls hp₂
        (hfollows.congr (r₂.pow.trans r₁.pow.symm) htarget)
      rw [hid] at he₂
      have hid₂ := r₂.id he₂
      have hcalls₂ : e₂.header ∈ calls₂ :=
        (run₂.stored_subset _ (r₂.all he₂)).resolve_left (hgenesis hid₂)
      have hheader : e₂.header = e.header := hfree _ hcalls₂ _ hcalls (hid₂.trans hid.symm)
      obtain ⟨parent₂, hp₂', _, hw₂⟩ := r₂.child he₂ (hgen ▸ hx)
      rw [hheader, hp₂] at hp₂'
      cases hp₂'
      have hwork : e₂.cumulativeWork = e.cumulativeWork := by rw [hw₂, hw, hheader]
      rw [he₂, Entry.ext hheader hwork]

theorem Reached.tipWork_eq (hr : Reached blake3 genesis params pow stored c) :
    c.tipWork = .ok (c.workAt c.tip) := by
  obtain ⟨e, he⟩ := hr.tip_mem
  rw [tipWork, tipEntry, he, workAt_of_lookup he]
  rfl

/-- Two orders of submitting one set of headers, parents first, store the same headers with the
same work, and end on tips of equal work. -/
theorem run_converge (run₁ : Run blake3 genesis params pow calls₁ stored₁ c₁)
    (run₂ : Run blake3 genesis params pow calls₂ stored₂ c₂)
    (hsame : ∀ h, h ∈ calls₁ ↔ h ∈ calls₂) (horder₁ : ParentsFirst blake3 calls₁)
    (horder₂ : ParentsFirst blake3 calls₂) (hfree : CollisionFree blake3 calls₁) :
    (∀ h, h ∈ stored₁ ↔ h ∈ stored₂) ∧
    (∀ x, c₁.blocks.lookup x = c₂.blocks.lookup x) ∧
    (∃ work, c₁.tipWork = .ok work ∧ c₂.tipWork = .ok work) ∧
    c₁.workAt c₁.tip = c₁.workAt c₂.tip := by
  have r₁ := run₁.reached
  have r₂ := run₂.reached
  have hfree₂ : CollisionFree blake3 calls₂ := fun h hh y hy =>
    hfree h ((hsame h).mpr hh) y ((hsame y).mpr hy)
  have hsub : ∀ {x e}, c₁.blocks.lookup x = some e → c₂.blocks.lookup x = some e :=
    fun he => run₁.lookup_of_lookup run₂ (fun h => (hsame h).mp) horder₂ hfree₂ he
  have hsup : ∀ {x e}, c₂.blocks.lookup x = some e → c₁.blocks.lookup x = some e :=
    fun he => run₂.lookup_of_lookup run₁ (fun h => (hsame h).mpr) horder₁ hfree he
  have hlookup : ∀ x, c₁.blocks.lookup x = c₂.blocks.lookup x := by
    intro x
    exact Option.ext fun e => ⟨hsub, hsup⟩
  have hwork : ∀ x, c₁.workAt x = c₂.workAt x := by
    intro x
    rw [workAt, workAt, hlookup]
  obtain ⟨t₁, ht₁⟩ := r₁.tip_mem
  obtain ⟨t₂, ht₂⟩ := r₂.tip_mem
  have hle₁ := r₂.work_le (hsub ht₁)
  have hle₂ := r₁.work_le (hsup ht₂)
  have htips : c₁.workAt c₁.tip = c₁.workAt c₂.tip := by
    rw [← hwork, ← hwork] at hle₁
    omega
  refine ⟨fun h => ⟨fun hh => ?_, fun hh => ?_⟩, hlookup, ⟨_, r₁.tipWork_eq, ?_⟩, htips⟩
  · obtain ⟨e, he, hhe⟩ := r₁.mem h hh
    exact hhe ▸ r₂.all (hsub he)
  · obtain ⟨e, he, hhe⟩ := r₂.mem h hh
    exact hhe ▸ r₁.all (hsup he)
  · rw [r₂.tipWork_eq, htips, hwork]

end Order

section Example

/-- A genesis at the easiest target. -/
def easyGenesis : BlockHeader where
  version := headerVersion
  prevHash := 0
  height := 0
  timestamp := 1000000
  txMerkleRoot := 0
  stateRoot := 0
  target := BitVec.allOnes 256
  nonce := 0
  miner := 0

/-- A child of the easy genesis with a timestamp of its own. -/
def easyChild (timestamp : BitVec 64) : BlockHeader :=
  { easyGenesis with prevHash := easyGenesis.id Blake3.hash, height := 1, timestamp }

/-- The second of two siblings is a side chain. -/
private theorem run_siblings : ∀ t ∈ [(easyChild 1000010, easyChild 1000020),
    (easyChild 1000020, easyChild 1000010)],
      ∃ c, Run Blake3.hash easyGenesis ⟨10, 16⟩ (blake3Pow Blake3.hash) ([] ++ [t.1] ++ [t.2])
        ([easyGenesis] ++ [t.1] ++ [t.2]) c := by
  have hrun : ∀ t ∈ [(easyChild 1000010, easyChild 1000020),
      (easyChild 1000020, easyChild 1000010)],
      returnsWith (ChainState.new Blake3.hash easyGenesis ⟨10, 16⟩ (blake3Pow Blake3.hash))
        (fun c => returnsWith (c.addHeader Blake3.hash t.1) fun r =>
          returnsWith r.1 (fun _ => true) &&
            returnsWith (r.2.addHeader Blake3.hash t.2) fun r =>
              returnsWith r.1 fun _ => true) = true := by
    decide +kernel
  intro t ht
  obtain ⟨g, hg, h⟩ := returnsWith_iff.mp (hrun t ht)
  obtain ⟨⟨_, d⟩, hd, h⟩ := returnsWith_iff.mp h
  obtain ⟨hv, h⟩ := (Bool.and_eq_true _ _).mp h
  obtain ⟨_, rfl, _⟩ := returnsWith_iff.mp hv
  obtain ⟨⟨_, c⟩, hc, hv⟩ := returnsWith_iff.mp h
  obtain ⟨_, rfl, _⟩ := returnsWith_iff.mp hv
  exact ⟨c, .accepted (.accepted (.new hg) hd) hc⟩

theorem chainState_invariant_siblings : ∃ c : ChainState,
    FirstHeaviest Blake3.hash [easyGenesis, easyChild 1000010, easyChild 1000020] c := by
  obtain ⟨c, run⟩ := run_siblings _ List.mem_cons_self
  exact ⟨c, (chainState_invariant run).2.2.2.2.1⟩

theorem run_converge_siblings : ∃ c₁ c₂ : ChainState,
    (∀ x, c₁.blocks.lookup x = c₂.blocks.lookup x) ∧
      ∃ work, c₁.tipWork = .ok work ∧ c₂.tipWork = .ok work := by
  obtain ⟨c₁, run₁⟩ := run_siblings _ List.mem_cons_self
  obtain ⟨c₂, run₂⟩ := run_siblings _ (List.mem_cons_of_mem _ List.mem_cons_self)
  have hid : (easyChild 1000010).id Blake3.hash ≠ (easyChild 1000020).id Blake3.hash := by
    decide +kernel
  have hids : CollisionFree Blake3.hash ([] ++ [easyChild 1000010] ++ [easyChild 1000020]) := by
    intro h hh y hy heq
    simp only [List.nil_append, List.cons_append, List.mem_cons, List.not_mem_nil, or_false]
      at hh hy
    rcases hh with rfl | rfl <;> rcases hy with rfl | rfl
    · rfl
    · exact absurd heq hid
    · exact absurd heq.symm hid
    · rfl
  have horder : ParentsFirst Blake3.hash ([] ++ [easyChild 1000010] ++ [easyChild 1000020]) ∧
      ParentsFirst Blake3.hash ([] ++ [easyChild 1000020] ++ [easyChild 1000010]) := by
    have hne : (easyChild 1000020).id Blake3.hash ≠ (easyChild 1000010).prevHash ∧
        (easyChild 1000010).id Blake3.hash ≠ (easyChild 1000020).prevHash := by
      decide +kernel
    exact ⟨List.pairwise_pair.mpr hne.1, List.pairwise_pair.mpr hne.2⟩
  have hsame : ∀ h, h ∈ [] ++ [easyChild 1000010] ++ [easyChild 1000020] ↔
      h ∈ [] ++ [easyChild 1000020] ++ [easyChild 1000010] := by
    intro h
    simp only [List.nil_append, List.cons_append, List.mem_cons, List.not_mem_nil, or_false]
    exact or_comm
  obtain ⟨_, hlookup, hwork, _⟩ := run_converge run₁ run₂ hsame horder.1 horder.2 hids
  exact ⟨c₁, c₂, hlookup, hwork⟩

end Example

end TaoDag.Consensus.ChainState
