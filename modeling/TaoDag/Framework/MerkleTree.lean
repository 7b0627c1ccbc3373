import Mathlib

namespace TaoDag.Merkle

universe u v

variable {α β : Type u} {γ : Type v}

/-- Neighbours in pairs; a last one left over is its own neighbour. -/
def pairUp : List α → List (α × α)
  | [] => []
  | [a] => [(a, a)]
  | a :: b :: rest => (a, b) :: pairUp rest

/-- The `2^n` items that `n` rounds of pairing consume, repetitions written out. -/
def writeOut : Nat → {α : Type u} → List α → List α
  | 0, _, l => l
  | n+1, _, l => (writeOut n (pairUp l)).flatMap fun p => [p.1, p.2]

@[simp] theorem pairUp_length (l : List α) : (pairUp l).length = (l.length + 1) / 2 := by
  induction l using pairUp.induct with
  | case1 => simp [pairUp]
  | case2 a => simp [pairUp]
  | case3 a b rest ih =>
    rw [pairUp, List.length_cons, ih, List.length_cons, List.length_cons]
    omega

theorem pairUp_map (f : α → β) (l : List α) :
    pairUp (l.map f) = (pairUp l).map fun p => (f p.1, f p.2) := by
  induction l using pairUp.induct with
  | case1 => rfl
  | case2 a => rfl
  | case3 a b rest ih => simp [pairUp, ih]

theorem mem_of_mem_pairUp {l : List α} {p : α × α} (h : p ∈ pairUp l) : p.1 ∈ l ∧ p.2 ∈ l := by
  induction l using pairUp.induct with
  | case1 => cases h
  | case2 a =>
    rcases List.mem_singleton.mp h with rfl
    simp
  | case3 a b rest ih =>
    rcases List.mem_cons.mp h with rfl | h
    · simp
    · have hr := ih h
      simp [hr.1, hr.2]

theorem writeOut_map (f : α → β) (n : Nat) (l : List α) :
    writeOut n (l.map f) = (writeOut n l).map f := by
  induction n generalizing α β with
  | zero => rfl
  | succ n ih =>
    rw [writeOut, writeOut, pairUp_map, ih, List.map_flatMap, List.flatMap_map]
    rfl

theorem mem_of_mem_writeOut {n : Nat} {l : List α} {a : α} (h : a ∈ writeOut n l) : a ∈ l := by
  induction n generalizing α with
  | zero => exact h
  | succ n ih =>
    obtain ⟨p, hp, ha⟩ := List.mem_flatMap.mp h
    have hm := mem_of_mem_pairUp (ih hp)
    have hcases : a = p.1 ∨ a = p.2 := by simpa using ha
    rcases hcases with rfl | rfl
    · exact hm.1
    · exact hm.2

private theorem flatMap_pair_inj {l l' : List (α × α)}
    (h : l.flatMap (fun p => [p.1, p.2]) = l'.flatMap fun p => [p.1, p.2]) : l = l' := by
  induction l generalizing l' with
  | nil =>
    cases l' with
    | nil => rfl
    | cons q l' => simp at h
  | cons p l ih =>
    cases l' with
    | nil => simp at h
    | cons q l' =>
      simp only [List.flatMap_cons, List.cons_append, List.nil_append, List.cons.injEq] at h
      obtain ⟨h1, h2, hr⟩ := h
      rw [Prod.ext h1 h2, ih hr]

theorem writeOut_succ_inj {n : Nat} {l l' : List α} :
    writeOut (n + 1) l = writeOut (n + 1) l' ↔ writeOut n (pairUp l) = writeOut n (pairUp l') :=
  ⟨flatMap_pair_inj, fun h => by rw [writeOut, writeOut, h]⟩

theorem writeOut_append (n : Nat) (l : List α) : l ≠ [] → l.length ≤ 2^n →
    ∃ tail, writeOut n l = l ++ tail := by
  induction n generalizing α with
  | zero => exact fun _ _ => ⟨[], by simp [writeOut]⟩
  | succ n ih =>
    intro hne hle
    have hp : pairUp l ≠ [] := by
      intro h
      have hl := pairUp_length l
      rw [h, List.length_nil] at hl
      have hpos := List.length_pos_iff.mpr hne
      omega
    have hlen : (pairUp l).length ≤ 2^n := by
      rw [pairUp_length]
      rw [Nat.pow_succ] at hle
      omega
    obtain ⟨tail, ht⟩ := ih (pairUp l) hp hlen
    have hflat : ∃ rest, (pairUp l).flatMap (fun p => [p.1, p.2]) = l ++ rest := by
      clear ih hne hle hp hlen ht
      induction l using pairUp.induct with
      | case1 => exact ⟨[], rfl⟩
      | case2 a => exact ⟨[a], rfl⟩
      | case3 a b rest ih =>
        obtain ⟨r, hr⟩ := ih
        exact ⟨r, by simp [pairUp, hr]⟩
    obtain ⟨rest, hr⟩ := hflat
    exact ⟨rest ++ tail.flatMap fun p => [p.1, p.2], by
      rw [writeOut, ht, List.flatMap_append, hr, List.append_assoc]⟩

private theorem map_inj_of_mem {f : α → β} {l l' : List α}
    (hf : ∀ x ∈ l, ∀ y ∈ l', f x = f y → x = y) (h : l.map f = l'.map f) : l = l' := by
  induction l generalizing l' with
  | nil =>
    cases l' with
    | nil => rfl
    | cons y l' => simp at h
  | cons x l ih =>
    cases l' with
    | nil => simp at h
    | cons y l' =>
      simp only [List.map_cons, List.cons.injEq] at h
      have hx : x = y := hf x (by simp) y (by simp) h.1
      have hl : l = l' := ih (fun a ha b hb => hf a (by simp [ha]) b (by simp [hb])) h.2
      rw [hx, hl]

section Hashing

-- `digest` hashes an item; `join` is the item that an inner node hashes.
variable (digest : α → γ) (join : γ → γ → α)

/-- One level up, as the items that are hashed there. -/
def parents (l : List α) : List α := (pairUp l).map fun p => join (digest p.1) (digest p.2)

/-- The items hashed `n` levels up. -/
def level (n : Nat) (l : List α) : List α := (parents digest join)^[n] l

/-- How many levels a list has above it. -/
def height (l : List α) : Nat := Nat.clog 2 l.length

/-- Every item that the tree over `l` hashes. -/
def Hashed (l : List α) : Set α := {x | ∃ n ≤ height l, x ∈ level digest join n l}

/-- The same items, level by level. -/
def hashedList (n : Nat) (l : List α) : List α :=
  (List.range (n + 1)).flatMap fun k => level digest join k l

theorem mem_hashed_iff {l : List α} {x : α} :
    x ∈ Hashed digest join l ↔ x ∈ hashedList digest join (height l) l := by
  simp only [Hashed, hashedList, Set.mem_ofPred_eq, List.mem_flatMap, List.mem_range,
    Nat.lt_succ_iff]

theorem level_succ (n : Nat) (l : List α) :
    level digest join (n + 1) l = level digest join n (parents digest join l) := rfl

theorem level_add (m n : Nat) (l : List α) :
    level digest join m (level digest join n l) = level digest join (m + n) l :=
  (Function.iterate_add_apply _ m n l).symm

theorem parents_length (l : List α) :
    (parents digest join l).length = (l.length + 1) / 2 := by simp [parents]

theorem height_parents {l : List α} (h : 1 < l.length) :
    height l = height (parents digest join l) + 1 := by
  have hlen : ((l.length + 2 - 1) / 2) = (l.length + 1) / 2 := by omega
  rw [height, height, parents_length, Nat.clog_of_two_le (le_refl 2) h, hlen]

theorem level_length_of_le {l : List α} (hl : l ≠ []) :
    (level digest join (height l) l).length = 1 := by
  generalize hn : height l = n
  induction n generalizing l with
  | zero =>
    have hpos := List.length_pos_iff.mpr hl
    by_contra hne
    have h1 : 1 < l.length := by
      change ¬(l.length = 1) at hne
      omega
    rw [height_parents digest join h1] at hn
    omega
  | succ n ih =>
    have h1 : 1 < l.length := by
      by_contra h
      have : Nat.clog 2 l.length = 0 := Nat.clog_of_right_le_one (by omega) 2
      rw [height, this] at hn
      omega
    have hne : parents digest join l ≠ [] := by
      intro h
      have hp := parents_length digest join l
      rw [h, List.length_nil] at hp
      omega
    rw [level_succ]
    apply ih hne
    rw [height_parents digest join h1] at hn
    omega

variable {digest join}

/-- Two levels above are equal exactly when the lists are, repetitions written out. -/
theorem level_eq_iff (hjoin : ∀ a b c d, join a b = join c d → a = c ∧ b = d) {S : Set α}
    (hinj : Set.InjOn digest S) (n : Nat) (l l' : List α)
    (hl : ∀ k < n, ∀ x ∈ level digest join k l, x ∈ S)
    (hl' : ∀ k < n, ∀ x ∈ level digest join k l', x ∈ S) :
    level digest join n l = level digest join n l' ↔ writeOut n l = writeOut n l' := by
  induction n generalizing l l' with
  | zero => rfl
  | succ n ih =>
    have hup : ∀ m : List α, (∀ k < n + 1, ∀ x ∈ level digest join k m, x ∈ S) →
        ∀ k < n, ∀ x ∈ level digest join k (parents digest join m), x ∈ S := by
      intro m hm k hk x hx
      exact hm (k + 1) (by omega) x hx
    rw [level_succ, level_succ, ih _ _ (hup l hl) (hup l' hl'), writeOut_succ_inj, parents,
      parents, writeOut_map, writeOut_map]
    constructor
    · intro h
      refine map_inj_of_mem ?_ h
      intro p hp q hq hpq
      have hd := hjoin _ _ _ _ hpq
      have hp' := mem_of_mem_pairUp (mem_of_mem_writeOut hp)
      have hq' := mem_of_mem_pairUp (mem_of_mem_writeOut hq)
      have h0 := hl 0 (by omega)
      have h0' := hl' 0 (by omega)
      exact Prod.ext (hinj (h0 _ hp'.1) (h0' _ hq'.1) hd.1) (hinj (h0 _ hp'.2) (h0' _ hq'.2) hd.2)
    · intro h
      rw [h]

variable (digest join) in
/-- The two trees hash the same items, once repetitions are written out at the leaves of
the lower one: there the higher tree has items of its inner nodes. -/
def SameTree (l l' : List α) : Prop :=
  let h := min (height l) (height l')
  writeOut h (level digest join (height l - h) l) =
    writeOut h (level digest join (height l' - h) l')

theorem mem_hashed_of_level {l : List α} {m k : Nat} (h : m + k < height l) {x : α}
    (hx : x ∈ level digest join k (level digest join m l)) : x ∈ Hashed digest join l := by
  rw [level_add] at hx
  exact ⟨k + m, by omega, hx⟩

/-- The items at the top are equal exactly when the trees are. -/
theorem top_eq_iff (hjoin : ∀ a b c d, join a b = join c d → a = c ∧ b = d) {l l' : List α}
    (hinj : Set.InjOn digest (Hashed digest join l ∪ Hashed digest join l')) :
    level digest join (height l) l = level digest join (height l') l' ↔
      SameTree digest join l l' := by
  have hl : level digest join (height l) l = level digest join (min (height l) (height l'))
      (level digest join (height l - min (height l) (height l')) l) := by
    rw [level_add]
    congr 1
    omega
  have hl' : level digest join (height l') l' = level digest join (min (height l) (height l'))
      (level digest join (height l' - min (height l) (height l')) l') := by
    rw [level_add]
    congr 1
    omega
  rw [hl, hl']
  apply level_eq_iff hjoin hinj
  · intro k hk x hx
    exact Or.inl (mem_hashed_of_level (by omega) hx)
  · intro k hk x hx
    exact Or.inr (mem_hashed_of_level (by omega) hx)

/-- Lists of one length have the same tree only if they are equal. -/
theorem SameTree.eq_of_length_eq {l l' : List α} (h : SameTree digest join l l')
    (hlen : l.length = l'.length) : l = l' := by
  have hh : height l = height l' := by rw [height, height, hlen]
  rw [SameTree, hh, Nat.min_self, Nat.sub_self] at h
  cases l with
  | nil => exact (List.length_eq_zero_iff.mp hlen.symm).symm
  | cons a l =>
    have hne : l' ≠ [] := by
      rintro rfl
      simp at hlen
    have hle : l'.length ≤ 2^height l' := Nat.le_pow_clog (by decide) _
    obtain ⟨t, ht⟩ := writeOut_append (height l') (a :: l) (by simp) (by omega)
    obtain ⟨t', ht'⟩ := writeOut_append (height l') l' hne hle
    have happ : (a :: l) ++ t = l' ++ t' := by
      rw [← ht, ← ht']
      exact h
    exact (List.append_inj happ hlen).1

end Hashing

end TaoDag.Merkle
