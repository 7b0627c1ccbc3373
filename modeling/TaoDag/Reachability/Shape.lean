import TaoDag.Framework.IntervalLabels
import TaoDag.Reachability.Inquirer

namespace TaoDag

universe u

/-- What a replaced entry leaves of a lookup. -/
theorem lookup_replace {ν : Type u} (m : BlockHashMap ν) (h h' : Hash) (v : ν) :
    (m.replace h v).lookup h' = if h' = h then (m.lookup h).map (fun _ => v) else m.lookup h' := by
  change List.dlookup h' (List.kreplace h v m.entries) =
    if h' = h then (List.dlookup h m.entries).map (fun _ => v) else List.dlookup h' m.entries
  induction m.entries with
  | nil => simp [List.kreplace]
  | cons e l ih =>
    obtain ⟨k, w⟩ := e
    by_cases hk : h = k
    · subst hk
      have hcons : List.kreplace h v (⟨h, w⟩ :: l) = ⟨h, v⟩ :: l :=
        List.lookmap_cons_some _ l (by simp)
      rw [hcons]
      by_cases hh : h' = h
      · subst hh
        simp [List.dlookup_cons_eq]
      · simp [hh, List.dlookup_cons_ne]
    · have hcons : List.kreplace h v (⟨k, w⟩ :: l) = ⟨k, w⟩ :: List.kreplace h v l :=
        List.lookmap_cons_none _ l (by simp [hk])
      rw [hcons]
      by_cases hh : h' = k
      · subst hh
        simp [List.dlookup_cons_eq, Ne.symm hk]
      · have hskip : ∀ l' : List ((_ : Hash) × ν),
            List.dlookup h' (⟨k, w⟩ :: l') = List.dlookup h' l' :=
          fun l' => List.dlookup_cons_ne l' _ hh
        have hskip' : List.dlookup h (⟨k, w⟩ :: l) = List.dlookup h l :=
          List.dlookup_cons_ne l _ hk
        rw [hskip, hskip, hskip', ih]

namespace Reachability

namespace MemoryReachabilityStore

variable (s : MemoryReachabilityStore) (x : Hash)

/-- The blocks of the store. -/
def nodes : Finset Hash := s.map.keys.toFinset

def kids : List Hash := ((s.map.lookup x).map (·.children)).getD []

def par : Hash := ((s.map.lookup x).map (·.parent)).getD blockhash.none

def iv : Interval := ((s.map.lookup x).map (·.interval)).getD Interval.maximal

def depth : Nat := ((s.map.lookup x).map (·.height)).getD 0

def covering : List Hash := ((s.map.lookup x).map (·.futureCoveringSet)).getD []

/-- First and last label. -/
def lo : Nat := (s.iv x).start

def hi : Nat := (s.iv x).stop

variable {s x}

@[simp] theorem mem_nodes : x ∈ s.nodes ↔ x ∈ s.map := by simp [nodes, AList.mem_keys]

theorem mem_nodes_iff : x ∈ s.nodes ↔ ∃ d, s.map.lookup x = some d := by
  rw [mem_nodes, ← AList.lookup_isSome, Option.isSome_iff_exists]

theorem card_nodes (s : MemoryReachabilityStore) : s.nodes.card = s.count := by
  rw [nodes, List.toFinset_card_of_nodup s.map.keys_nodup, AList.keys, List.keys,
    List.length_map, count]

theorem has_iff : s.has x = true ↔ x ∈ s.nodes := by
  rw [has, AList.lookup_isSome, mem_nodes]

theorem kids_of_not_mem (h : x ∉ s.nodes) : s.kids x = [] := by
  rw [mem_nodes, ← AList.lookup_eq_none] at h
  simp [kids, h]

/-- Only intervals differ. -/
structure SameShape (s s' : MemoryReachabilityStore) : Prop where
  keys : s'.map.keys = s.map.keys
  kids : s'.kids = s.kids
  par : s'.par = s.par
  depth : s'.depth = s.depth
  covering : s'.covering = s.covering
  root : s'.reindexRoot = s.reindexRoot

theorem SameShape.refl (s : MemoryReachabilityStore) : SameShape s s := ⟨rfl, rfl, rfl, rfl, rfl, rfl⟩

theorem SameShape.trans {s s' s'' : MemoryReachabilityStore} (h : SameShape s s')
    (h' : SameShape s' s'') : SameShape s s'' :=
  ⟨h'.keys.trans h.keys, h'.kids.trans h.kids, h'.par.trans h.par, h'.depth.trans h.depth,
    h'.covering.trans h.covering, h'.root.trans h.root⟩

theorem SameShape.symm {s s' : MemoryReachabilityStore} (h : SameShape s s') : SameShape s' s :=
  ⟨h.keys.symm, h.kids.symm, h.par.symm, h.depth.symm, h.covering.symm, h.root.symm⟩

theorem SameShape.nodes {s s' : MemoryReachabilityStore} (h : SameShape s s') :
    s'.nodes = s.nodes := by rw [MemoryReachabilityStore.nodes, h.keys]; rfl

theorem SameShape.count {s s' : MemoryReachabilityStore} (h : SameShape s s') :
    s'.count = s.count := by rw [← card_nodes, h.nodes, card_nodes]

section Specs

variable {C : Prop}

theorem getData_spec (h : C → x ∈ s.nodes) :
    Returns C (s.getData x) (fun d => s.map.lookup x = some d) := by
  rw [getData]
  cases hl : s.map.lookup x with
  | some d => exact Returns.ok rfl
  | none =>
    refine Returns.error fun hc => ?_
    obtain ⟨d, hd⟩ := mem_nodes_iff.mp (h hc)
    rw [hl] at hd
    cases hd

theorem getInterval_spec (h : C → x ∈ s.nodes) :
    Returns C (s.getInterval x) (fun i => i = s.iv x ∧ x ∈ s.nodes) :=
  Returns.bind (getData_spec h) fun d hd =>
    Returns.pure ⟨by simp [iv, hd], mem_nodes_iff.mpr ⟨d, hd⟩⟩

theorem getParent_spec (h : C → x ∈ s.nodes) :
    Returns C (s.getParent x) (fun p => p = s.par x ∧ x ∈ s.nodes) :=
  Returns.bind (getData_spec h) fun d hd =>
    Returns.pure ⟨by simp [par, hd], mem_nodes_iff.mpr ⟨d, hd⟩⟩

theorem getChildren_spec (h : C → x ∈ s.nodes) :
    Returns C (s.getChildren x) (fun l => l = s.kids x ∧ x ∈ s.nodes) :=
  Returns.bind (getData_spec h) fun d hd =>
    Returns.pure ⟨by simp [kids, hd], mem_nodes_iff.mpr ⟨d, hd⟩⟩

theorem getHeight_spec (h : C → x ∈ s.nodes) :
    Returns C (s.getHeight x) (fun n => n = s.depth x ∧ x ∈ s.nodes) :=
  Returns.bind (getData_spec h) fun d hd =>
    Returns.pure ⟨by simp [depth, hd], mem_nodes_iff.mpr ⟨d, hd⟩⟩

theorem getFutureCoveringSet_spec (h : C → x ∈ s.nodes) :
    Returns C (s.getFutureCoveringSet x) (fun l => l = s.covering x ∧ x ∈ s.nodes) :=
  Returns.bind (getData_spec h) fun d hd =>
    Returns.pure ⟨by simp [covering, hd], mem_nodes_iff.mpr ⟨d, hd⟩⟩

/-- A written record: its reader sees the change, the others see nothing. -/
theorem update_spec {f : MemoryReachabilityData → MemoryReachabilityData}
    (h : C → x ∈ s.nodes) :
    Returns C (s.update x f) (fun s' => x ∈ s.nodes ∧ s'.map.keys = s.map.keys ∧
      s'.reindexRoot = s.reindexRoot ∧
      ∀ y, s'.map.lookup y = if y = x then (s.map.lookup x).map f else s.map.lookup y) := by
  refine Returns.bind (getData_spec h) fun d hd => Returns.pure ?_
  refine ⟨mem_nodes_iff.mpr ⟨d, hd⟩, AList.keys_replace .., rfl, fun y => ?_⟩
  rw [lookup_replace, hd]
  rfl

/-- The store with the record `d` for the block `x`. -/
structure Written (s s' : MemoryReachabilityStore) (x : Hash) (d : MemoryReachabilityData) :
    Prop where
  mem : x ∈ s.nodes
  keys : s'.map.keys = s.map.keys
  kids : s'.kids = Function.update s.kids x d.children
  par : s'.par = Function.update s.par x d.parent
  iv : s'.iv = Function.update s.iv x d.interval
  depth : s'.depth = Function.update s.depth x d.height
  covering : s'.covering = Function.update s.covering x d.futureCoveringSet
  root : s'.reindexRoot = s.reindexRoot

theorem update_written {f : MemoryReachabilityData → MemoryReachabilityData}
    (h : C → x ∈ s.nodes) : Returns C (s.update x f) (fun s' =>
      Written s s' x (f ⟨s.kids x, s.par x, s.iv x, s.depth x, s.covering x⟩)) := by
  refine (update_spec h).mono ?_
  rintro s' ⟨hx, hkeys, hroot, hl⟩
  obtain ⟨d, hd⟩ := mem_nodes_iff.mp hx
  have hdata : (⟨s.kids x, s.par x, s.iv x, s.depth x, s.covering x⟩ : MemoryReachabilityData) =
      d := by
    simp [MemoryReachabilityStore.kids, MemoryReachabilityStore.par, MemoryReachabilityStore.iv,
      MemoryReachabilityStore.depth, MemoryReachabilityStore.covering, hd]
  have field : ∀ {β : Type} (g : MemoryReachabilityData → β) (e : β),
      (fun y => ((s'.map.lookup y).map g).getD e) =
        Function.update (fun y => ((s.map.lookup y).map g).getD e) x (g (f d)) := by
    intro β g e
    funext y
    rw [hl y, Function.update_apply]
    split_ifs with hy
    · rw [hd]
      rfl
    · rfl
  rw [hdata]
  exact ⟨hx, hkeys, field _ _, field _ _, field _ _, field _ _, field _ _, hroot⟩

/-- `set_interval` changes one interval. -/
theorem setInterval_spec {i : Interval} (h : C → x ∈ s.nodes) :
    Returns C (s.setInterval x i) (fun s' => x ∈ s.nodes ∧ SameShape s s' ∧
      s'.iv = Function.update s.iv x i) := by
  refine (update_written h).mono fun s' hs' => ⟨hs'.mem, ⟨hs'.keys, ?_, ?_, ?_, ?_, hs'.root⟩, hs'.iv⟩
  · rw [hs'.kids, Function.update_eq_self]
  · rw [hs'.par, Function.update_eq_self]
  · rw [hs'.depth, Function.update_eq_self]
  · rw [hs'.covering, Function.update_eq_self]

end Specs

end MemoryReachabilityStore

end Reachability

end TaoDag
