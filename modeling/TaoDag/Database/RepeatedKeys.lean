import TaoDag.Database.StateProof

namespace TaoDag.Database.SparseMerkleTree

open Smt (path bit height hash2 leafHash emptyLeaf)
open SparseTree (Separates leftEdge)

variable {blake3 : Bytes → Hash} {entries : List (Hash × Hash)}

/-- The calls of `update_leaf` that set the entries one after the other. -/
def updatesOf (entries : List (Hash × Hash)) : List (Hash × Option Hash) :=
  entries.map fun e => (e.1, some e.2)

/-- A map in which later entries overwrite earlier ones gives a key its value in the last entry. -/
theorem valuesOf_updatesOf (entries : List (Hash × Hash)) :
    valuesOf (updatesOf entries) = valueAt entries.reverse := by
  induction entries using List.reverseRecOn with
  | nil => rfl
  | append_singleton entries e ih =>
    funext key
    have hlast : valuesOf (updatesOf (entries ++ [e])) =
        Function.update (valuesOf (updatesOf entries)) e.1 (some e.2) := by
      simp [valuesOf, updatesOf]
    rw [hlast, ih, List.reverse_append, List.reverse_singleton, List.singleton_append, valueAt,
      List.find?_cons]
    by_cases hkey : e.1 = key
    · subst hkey
      simp
    · rw [Function.update_of_ne (Ne.symm hkey), valueAt]
      simp [hkey]

/-- A key has a value in the first entry that names it when it has one in the last. -/
theorem valueAt_reverse_isSome (entries : List (Hash × Hash)) (key : Hash) :
    (valueAt entries.reverse key).isSome = (valueAt entries key).isSome := by
  rw [Bool.eq_iff_iff]
  simp [valueAt]

/-- The first and the last entry of every key have one value hash. -/
def KeepsLast (entries : List (Hash × Hash)) : Prop :=
  ∀ key, valueAt entries key = valueAt entries.reverse key

/-- No two inputs have one hash where the tree over the first entries and the one over the last
entries of the keys both hash: at a node, or at the leaf of a key. -/
structure NoClash (blake3 : Bytes → Hash) (entries : List (Hash × Hash)) : Prop where
  nodes : Separates (hash2 blake3) 256 (leavesOf blake3 (valueAt entries))
    (leavesOf blake3 (valueAt entries.reverse))
  leaf : ∀ key first last, valueAt entries key = some first →
    valueAt entries.reverse key = some last →
    leafHash blake3 key first = leafHash blake3 key last → first = last

/-- Both trees have one root only if the entries that are kept have the value of the last ones. -/
theorem NoClash.keepsLast (h : NoClash blake3 entries)
    (hroot : SparseTree.root (hash2 blake3) 256 (leavesOf blake3 (valueAt entries)) =
      SparseTree.root (hash2 blake3) 256 (leavesOf blake3 (valueAt entries.reverse))) :
    KeepsLast entries := by
  intro key
  have hleaf := SparseTree.root_inj h.nodes hroot (Smt.path_length key)
  rw [leavesOf_path, leavesOf_path] at hleaf
  have hsome := valueAt_reverse_isSome entries key
  cases hfirst : valueAt entries key with
  | none =>
    rw [hfirst] at hsome
    exact (Option.isNone_iff_eq_none.mp (by simpa using hsome)).symm
  | some first =>
    rw [hfirst] at hsome hleaf
    obtain ⟨last, hlast⟩ := Option.isSome_iff_exists.mp hsome
    rw [hlast] at hleaf ⊢
    rw [h.leaf key first last hfirst hlast hleaf]

theorem root_fromEntries (entries : List (Hash × Hash)) :
    (fromEntries blake3 entries).root blake3 =
      SparseTree.root (hash2 blake3) 256 (leavesOf blake3 (valueAt entries)) :=
  fromEntries_covers entries |>.root

theorem storedRoot_updatesOf (entries : List (Hash × Hash)) :
    Smt.storedRoot blake3 (storeOf blake3 (updatesOf entries)) =
      SparseTree.root (hash2 blake3) 256 (leavesOf blake3 (valueAt entries.reverse)) := by
  rw [← valuesOf_updatesOf]
  exact (storeOf_represents (updatesOf entries)).storedRoot

/-- Folding `update_leaf` over the entries leaves the root for the map in which later entries
overwrite earlier ones. `from_entries` has that root when every key has one value hash in its first
and in its last entry, and, unless two inputs clash, only then. -/
theorem fromEntries_root_iff (entries : List (Hash × Hash)) :
    Smt.storedRoot blake3 (storeOf blake3 (updatesOf entries)) =
        SparseTree.root (hash2 blake3) 256 (leavesOf blake3 (valuesOf (updatesOf entries))) ∧
      (KeepsLast entries → (fromEntries blake3 entries).root blake3 =
        Smt.storedRoot blake3 (storeOf blake3 (updatesOf entries))) ∧
      (NoClash blake3 entries → (fromEntries blake3 entries).root blake3 =
        Smt.storedRoot blake3 (storeOf blake3 (updatesOf entries)) → KeepsLast entries) := by
  refine ⟨(storeOf_represents (updatesOf entries)).storedRoot, ?_, ?_⟩
  · intro h
    have hvalues : valueAt entries = valueAt entries.reverse := funext h
    rw [root_fromEntries, storedRoot_updatesOf, hvalues]
  · intro hfree hroot
    rw [root_fromEntries, storedRoot_updatesOf] at hroot
    exact hfree.keepsLast hroot

/-- A key that comes twice with one value. -/
theorem fromEntries_root_iff_twice :
    (fromEntries Blake3.hash [(1, 5), (2, 6), (1, 5)]).root Blake3.hash =
      Smt.storedRoot Blake3.hash (storeOf Blake3.hash (updatesOf [(1, 5), (2, 6), (1, 5)])) ∧
      KeepsLast [(1, 5), (2, 6), (1, 5)] := by
  have hkeeps : KeepsLast [(1, 5), (2, 6), (1, 5)] := fun _ => rfl
  have hiff := @fromEntries_root_iff Blake3.hash [(1, 5), (2, 6), (1, 5)]
  have hfree : NoClash Blake3.hash [(1, 5), (2, 6), (1, 5)] := by
    refine ⟨fun p _ _ side => rfl, fun key first last hfirst hlast _ => ?_⟩
    rw [← hkeeps key, hfirst] at hlast
    exact Option.some.inj hlast
  exact ⟨hiff.2.1 hkeeps, hiff.2.2 hfree (hiff.2.1 hkeeps)⟩

/-- A tree whose only key is `0`. -/
private theorem root_zeroKey {values : Hash → Option Hash} {valueHash : Hash}
    (hzero : values 0 = some valueHash) (hother : ∀ key, key ≠ 0 → values key = none) :
    SparseTree.root (hash2 blake3) 256 (leavesOf blake3 values) =
      leftEdge (hash2 blake3) 256 emptyLeaf (leafHash blake3 0 valueHash) := by
  have hpath : path 0 = List.replicate 256 false := by
    have hbit : bit 0 = fun _ => false := by
      funext i
      simp [bit]
    rw [path, hbit, List.map_const', List.length_range, height]
  have hroot : SparseTree.root (hash2 blake3) 256 (leavesOf blake3 values) =
      leftEdge (hash2 blake3) 256 emptyLeaf (leavesOf blake3 values (List.replicate 256 false)) := by
    refine SparseTree.root_leftEdge fun p hp hne => ?_
    obtain ⟨key, rfl⟩ := Smt.exists_path hp
    rw [leavesOf_path, hother key]
    · rfl
    · rintro rfl
      exact hne hpath
  rw [hroot, ← hpath, leavesOf_path, hzero]
  rfl

/-- A key that comes twice with two values: the first is kept. -/
theorem fromEntries_keeps_first : ¬ ∀ entries : List (Hash × Hash),
    (fromEntries Blake3.hash entries).root Blake3.hash =
      Smt.storedRoot Blake3.hash (storeOf Blake3.hash (updatesOf entries)) := by
  intro h
  have hother : ∀ a b key : Hash, key ≠ 0 → valueAt [(0, a), (0, b)] key = none := by
    intro a b key hkey
    simpa [valueAt] using Ne.symm hkey
  have hfirst := @root_zeroKey Blake3.hash (valueAt [(0, 5), (0, 6)]) 5 rfl (hother 5 6)
  have hlast := @root_zeroKey Blake3.hash (valueAt [(0, 6), (0, 5)]) 6 rfl (hother 6 5)
  have hroot := h [(0, 5), (0, 6)]
  rw [root_fromEntries, storedRoot_updatesOf, hfirst] at hroot
  have hne : leftEdge (hash2 Blake3.hash) 256 emptyLeaf (leafHash Blake3.hash 0 5) ≠
      leftEdge (hash2 Blake3.hash) 256 emptyLeaf (leafHash Blake3.hash 0 6) := by
    decide +kernel
  exact hne (hroot.trans hlast)

end TaoDag.Database.SparseMerkleTree
