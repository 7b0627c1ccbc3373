import TaoDag.Consensus.Work
import TaoDag.Dagvm.LogRecord
import TaoDag.Dagvm.Prune

namespace TaoDag.Dagvm

open Consensus (DagBlockHeader powLevel meetsTarget workForTarget workForTarget_le u256Max)
open TaoDag.Runtime (Env)

/-- The interlink of a child of `sp`: the entries up to the level of `sp` point at `sp`. -/
def interlinkAfter (sp : Hash) (header : DagBlockHeader) : List Hash :=
  (List.range (powLevel sp header.target + 1)).foldl
    (fun il k => if k < il.length then il.set k sp else il ++ [sp]) header.interlink

private theorem foldl_entries (sp : Hash) (il : List Hash) (n : Nat) :
    (List.range n).foldl (fun il k => if k < il.length then il.set k sp else il ++ [sp]) il =
      List.replicate n sp ++ il.drop n := by
  induction n with
  | zero => simp
  | succ n ih =>
    rw [List.range_succ, List.foldl_append, ih, List.foldl_cons, List.foldl_nil]
    by_cases hn : n < il.length
    · have hlen : n < (List.replicate n sp ++ il.drop n).length := by
        simp only [List.length_append, List.length_replicate, List.length_drop]
        omega
      rw [if_pos hlen, List.set_append_right _ _ (by simp), List.length_replicate, Nat.sub_self,
        List.drop_eq_getElem_cons hn, List.set_cons_zero, List.replicate_succ', List.append_assoc]
      rfl
    · have hdrop : il.drop n = [] := List.drop_eq_nil_of_le (by omega)
      have hdrop' : il.drop (n+1) = [] := List.drop_eq_nil_of_le (by omega)
      rw [hdrop, hdrop', List.append_nil, List.append_nil, if_neg (by simp), List.replicate_succ']

theorem interlinkAfter_eq (sp : Hash) (header : DagBlockHeader) :
    interlinkAfter sp header = List.replicate (powLevel sp header.target + 1) sp ++
      header.interlink.drop (powLevel sp header.target + 1) := foldl_entries sp _ _

theorem interlinkAfter_length (sp : Hash) (header : DagBlockHeader) :
    (interlinkAfter sp header).length =
      max (powLevel sp header.target + 1) header.interlink.length := by
  rw [interlinkAfter_eq]
  simp only [List.length_append, List.length_replicate, List.length_drop]
  omega

/-- The highest pointer of a child goes to the parent, or where that of the parent goes. -/
theorem interlinkAfter_getLast? (sp : Hash) (header : DagBlockHeader) :
    (interlinkAfter sp header).getLast? =
      if header.interlink.length ≤ powLevel sp header.target + 1 then some sp
      else header.interlink.getLast? := by
  rw [interlinkAfter_eq]
  split_ifs with h
  · rw [List.drop_eq_nil_of_le h, List.append_nil, List.getLast?_replicate, if_neg (by omega)]
  · have hlen : powLevel sp header.target + 1 < header.interlink.length := by omega
    have hne : header.interlink.drop (powLevel sp header.target + 1) ≠ [] := by
      rw [ne_eq, List.drop_eq_nil_iff]
      omega
    rw [List.getLast?_append_of_ne_nil _ hne, List.getLast?_drop, if_neg (by omega)]

section Chains

variable (blake3 : Bytes → Hash)

/-- A block whose level reaches every level before it on its chain: its interlink has an entry
for each of those. -/
def isRecord (h : DagBlockHeader) : Bool :=
  decide (h.interlink.length ≤ powLevel (h.id blake3) h.target + 1)

/-- A chain of headers, latest first, each mined on the one before, down to genesis. -/
inductive HeaderChain (genesisId : Hash) : List DagBlockHeader → Prop
  | genesis {h : DagBlockHeader} (id : h.id blake3 = genesisId) (interlink : h.interlink = []) :
      HeaderChain genesisId [h]
  | step {h p : DagBlockHeader} {rest : List DagBlockHeader}
      (chain : HeaderChain genesisId (p :: rest)) (parent : p.id blake3 ∈ h.parents)
      (interlink : h.interlink = interlinkAfter (p.id blake3) p)
      (work : meetsTarget (h.id blake3) h.target = true) : HeaderChain genesisId (h :: p :: rest)

/-- The headers that the highest pointers lead through, latest first: the tip and the records
before it. -/
def proofOf : List DagBlockHeader → List DagBlockHeader
  | [] => []
  | h :: rest => h :: rest.filter (isRecord blake3)

/-- The accumulated work of headers, as `verify_proof` sums it. -/
def accumulatedWork (l : List DagBlockHeader) : Nat :=
  min (l.map fun h => workForTarget h.target).sum u256Max

variable {blake3} {genesisId : Hash} {h p : DagBlockHeader} {rest l : List DagBlockHeader}

theorem isRecord_of_genesis (hi : h.interlink = []) : isRecord blake3 h = true := by
  simp [isRecord, hi]

/-- The interlink of a chain block is as long as the highest level before it demands. -/
theorem HeaderChain.interlink_length (hc : HeaderChain blake3 genesisId (h :: rest)) :
    h.interlink.length =
      (rest.map fun x => powLevel (x.id blake3) x.target + 1).foldr max 0 := by
  induction rest generalizing h with
  | nil =>
    cases hc with
    | genesis id interlink => simp [interlink]
  | cons p rest ih =>
    cases hc with
    | step chain parent interlink work =>
      rw [interlink, interlinkAfter_length, ih chain, List.map_cons, List.foldr_cons]

private theorem foldr_max_le {xs : List Nat} {n : Nat} :
    xs.foldr max 0 ≤ n ↔ ∀ x ∈ xs, x ≤ n := by
  induction xs with
  | nil => simp
  | cons x xs ih => simp [ih]

/-- A block is a record when no block before it on the chain has a higher level. -/
theorem HeaderChain.isRecord_iff (hc : HeaderChain blake3 genesisId (h :: rest)) :
    isRecord blake3 h = true ↔
      ∀ x ∈ rest, powLevel (x.id blake3) x.target ≤ powLevel (h.id blake3) h.target := by
  rw [isRecord, decide_eq_true_eq, hc.interlink_length, foldr_max_le]
  simp

/-- The highest pointer leads to the last record before the block. -/
theorem HeaderChain.getLast? (hc : HeaderChain blake3 genesisId (h :: rest)) :
    h.interlink.getLast? = (rest.filter (isRecord blake3)).head?.map (·.id blake3) := by
  induction rest generalizing h with
  | nil =>
    cases hc with
    | genesis id interlink => simp [interlink]
  | cons p rest ih =>
    cases hc with
    | step chain parent interlink work =>
      rw [interlink, interlinkAfter_getLast?]
      by_cases hr : p.interlink.length ≤ powLevel (p.id blake3) p.target + 1
      · have hrec : isRecord blake3 p = true := decide_eq_true hr
        rw [if_pos hr, List.filter_cons_of_pos hrec]
        rfl
      · have hrec : ¬isRecord blake3 p = true := by simpa [isRecord] using hr
        rw [if_neg hr, List.filter_cons_of_neg hrec, ih chain]

/-- Headers, latest first, that are found under their ids, each pointing at the next. -/
inductive Linked (blake3 : Bytes → Hash) (find : Hash → Option DagBlockHeader) :
    List DagBlockHeader → Prop
  | last {h : DagBlockHeader} (found : find (h.id blake3) = some h)
      (pointer : h.interlink.getLast? = none) : Linked blake3 find [h]
  | step {h n : DagBlockHeader} {rest : List DagBlockHeader} (found : find (h.id blake3) = some h)
      (pointer : h.interlink.getLast? = some (n.id blake3)) (next : Linked blake3 find (n :: rest)) :
      Linked blake3 find (h :: n :: rest)

namespace Linked

variable {find find' : Hash → Option DagBlockHeader} {l' : List DagBlockHeader}

theorem found (hl : Linked blake3 find l) : ∀ x ∈ l, find (x.id blake3) = some x := by
  induction hl with
  | last found pointer => simpa using found
  | step found pointer next ih => exact List.forall_mem_cons.mpr ⟨found, ih⟩

theorem cons (hf : find (h.id blake3) = some h) (hl : Linked blake3 find l)
    (hp : h.interlink.getLast? = l.head?.map (·.id blake3)) : Linked blake3 find (h :: l) := by
  cases hl with
  | last found pointer => exact .step hf hp (.last found pointer)
  | step found pointer next => exact .step hf hp (.step found pointer next)

/-- The walk is determined by the block it starts from. -/
theorem functional (hl : Linked blake3 find l) (hl' : Linked blake3 find l')
    (hid : l.head?.map (·.id blake3) = l'.head?.map (·.id blake3)) : l = l' := by
  induction hl generalizing l' with
  | @last h found pointer =>
    cases hl' with
    | @last h' found' pointer' =>
      have hh : h.id blake3 = h'.id blake3 := by simpa using hid
      rw [hh, found'] at found
      cases found
      rfl
    | @step h' n' rest' found' pointer' next' =>
      have hh : h.id blake3 = h'.id blake3 := by simpa using hid
      rw [hh, found'] at found
      cases found
      rw [pointer] at pointer'
      cases pointer'
  | @step h n rest found pointer next ih =>
    cases hl' with
    | @last h' found' pointer' =>
      have hh : h.id blake3 = h'.id blake3 := by simpa using hid
      rw [hh, found'] at found
      cases found
      rw [pointer] at pointer'
      cases pointer'
    | @step h' n' rest' found' pointer' next' =>
      have hh : h.id blake3 = h'.id blake3 := by simpa using hid
      rw [hh, found'] at found
      cases found
      rw [pointer] at pointer'
      rw [ih next' (by simpa using pointer')]

/-- From each of its blocks the walk goes on to the end. -/
theorem suffix (hl : Linked blake3 find l) {x : DagBlockHeader} (hx : x ∈ l) :
    ∃ r, Linked blake3 find (x :: r) ∧ (x :: r) <:+ l := by
  induction hl with
  | last found pointer =>
    rw [List.mem_singleton] at hx
    subst hx
    exact ⟨[], .last found pointer, List.suffix_rfl⟩
  | @step h n rest found pointer next ih =>
    rcases List.mem_cons.mp hx with rfl | hx
    · exact ⟨n :: rest, .step found pointer next, List.suffix_rfl⟩
    · obtain ⟨r, hr, hs⟩ := ih hx
      exact ⟨r, hr, hs.trans (List.suffix_cons ..)⟩

/-- The walk meets no block twice. -/
theorem nodup (hl : Linked blake3 find l) : (l.map (·.id blake3)).Nodup := by
  induction hl with
  | last found pointer => simp
  | @step h n rest found pointer next ih =>
    rw [List.map_cons, List.nodup_cons]
    refine ⟨fun hmem => ?_, ih⟩
    obtain ⟨x, hx, hid⟩ := List.mem_map.mp hmem
    obtain ⟨r, hr, hs⟩ := next.suffix hx
    have heq : x :: r = h :: n :: rest := hr.functional (.step found pointer next) (by simpa using hid)
    have hlen := hs.length_le
    rw [heq] at hlen
    simp at hlen

/-- The walk is the same where the blocks it meets are found as before. -/
theorem congr (hl : Linked blake3 find l) (hf : ∀ x ∈ l, find' (x.id blake3) = some x) :
    Linked blake3 find' l := by
  induction hl with
  | last found pointer => exact .last (hf _ (List.mem_singleton_self _)) pointer
  | step found pointer next ih =>
    exact .step (hf _ (List.mem_cons_self ..)) pointer
      (ih fun x hx => hf x (List.mem_cons_of_mem _ hx))

end Linked

theorem HeaderChain.tail (hc : HeaderChain blake3 genesisId (h :: p :: rest)) :
    HeaderChain blake3 genesisId (p :: rest) := by
  cases hc with
  | step chain parent interlink work => exact chain

/-- The records of a chain, when they are found, are linked. -/
theorem HeaderChain.linked_records {find : Hash → Option DagBlockHeader}
    (hc : HeaderChain blake3 genesisId l)
    (hf : ∀ x ∈ l, isRecord blake3 x = true → find (x.id blake3) = some x) :
    Linked blake3 find (l.filter (isRecord blake3)) := by
  induction hc with
  | @genesis h id interlink =>
    have hrec : isRecord blake3 h = true := isRecord_of_genesis interlink
    rw [List.filter_cons_of_pos hrec]
    exact .last (hf h (List.mem_singleton_self _) hrec) (by simp [interlink])
  | @step h p rest chain parent interlink work ih =>
    have hnext := ih fun x hx => hf x (List.mem_cons_of_mem _ hx)
    by_cases hrec : isRecord blake3 h = true
    · rw [List.filter_cons_of_pos hrec]
      exact hnext.cons (hf h (List.mem_cons_self ..) hrec)
        (HeaderChain.step chain parent interlink work).getLast?
    · rw [List.filter_cons_of_neg hrec]
      exact hnext

/-- The pointer walk down a chain whose records are found. -/
theorem HeaderChain.linked {find : Hash → Option DagBlockHeader}
    (hc : HeaderChain blake3 genesisId (h :: rest)) (hf : find (h.id blake3) = some h)
    (hr : ∀ x ∈ rest, isRecord blake3 x = true → find (x.id blake3) = some x) :
    Linked blake3 find (proofOf blake3 (h :: rest)) := by
  cases rest with
  | nil =>
    refine .last hf ?_
    rw [hc.getLast?]
    rfl
  | cons p rest => exact (hc.tail.linked_records hr).cons hf hc.getLast?

/-- A header that `verify_proof` can take: genesis ends the walk, and every other has work. -/
def Proven (blake3 : Bytes → Hash) (genesisId : Hash) (h : DagBlockHeader) : Prop :=
  (h.interlink = [] → h.id blake3 = genesisId) ∧
  (h.interlink ≠ [] → meetsTarget (h.id blake3) h.target = true)

theorem HeaderChain.proven (hc : HeaderChain blake3 genesisId l) :
    ∀ x ∈ l, Proven blake3 genesisId x := by
  induction hc with
  | genesis id interlink =>
    intro x hx
    rw [List.mem_singleton.mp hx]
    exact ⟨fun _ => id, fun hne => absurd interlink hne⟩
  | @step h p rest chain parent interlink work ih =>
    refine List.forall_mem_cons.mpr ⟨⟨fun hnil => ?_, fun _ => work⟩, ih⟩
    have hlen := interlinkAfter_length (p.id blake3) p
    rw [← interlink, hnil, List.length_nil] at hlen
    omega

theorem accumulatedWork_cons (h : DagBlockHeader) (l : List DagBlockHeader) :
    accumulatedWork (h :: l) = min (accumulatedWork l + workForTarget h.target) u256Max := by
  simp only [accumulatedWork, List.map_cons, List.sum_cons]
  omega

private theorem verifyProofFrom_concat (prev : Hash) (work : Nat) (l : List DagBlockHeader)
    (h : DagBlockHeader) :
    verifyProofFrom blake3 prev work (l ++ [h]) =
      (verifyProofFrom blake3 prev work l).bind fun w =>
        verifyProofFrom blake3 ((l.getLast?.map (·.id blake3)).getD prev) w [h] := by
  induction l generalizing prev work with
  | nil => rfl
  | cons x l ih =>
    rw [List.cons_append, verifyProofFrom, verifyProofFrom]
    by_cases hm : meetsTarget (x.id blake3) x.target = true
    · rw [if_neg (not_not.mpr hm), if_neg (not_not.mpr hm)]
      by_cases hp : x.interlink.getLast? = some prev
      · rw [if_neg (not_not.mpr hp), if_neg (not_not.mpr hp), ih]
        cases l with
        | nil => rfl
        | cons y l => simp [List.getLast?_cons]
      · rw [if_pos hp, if_pos hp]
        rfl
    · rw [if_pos hm, if_pos hm]
      rfl

/-- A proof that is taken goes on to be taken with a further linked header. -/
private theorem verifyProof_concat {proof : List DagBlockHeader} {origin : Hash} {work : Nat}
    (hp : verifyProof blake3 proof origin genesisId = .ok work)
    (hwork : meetsTarget (h.id blake3) h.target = true)
    (hptr : h.interlink.getLast? = some origin) :
    verifyProof blake3 (proof ++ [h]) (h.id blake3) genesisId =
      .ok (min (work + workForTarget h.target) u256Max) := by
  cases proof with
  | nil => cases hp
  | cons first rest =>
    rw [verifyProof] at hp
    split_ifs at hp with hfirst hlast
    rw [List.cons_append, verifyProof, if_neg hfirst]
    have hlast' : (first :: (rest ++ [h])).getLast (by simp) = h := by simp
    rw [if_neg (by rw [hlast']; simp), verifyProofFrom_concat, hp]
    have hprev : (rest.getLast?.map (·.id blake3)).getD (first.id blake3) = origin := by
      rw [← not_not.mp hlast]
      cases rest with
      | nil => rfl
      | cons y rest =>
        rw [List.getLast?_eq_some_getLast (List.cons_ne_nil y rest)]
        rfl
    rw [hprev]
    change verifyProofFrom blake3 origin work [h] = _
    rw [verifyProofFrom, if_neg (not_not.mpr hwork), if_neg (not_not.mpr hptr), verifyProofFrom]

/-- `verify_proof` takes a walk down to genesis, read from genesis on. -/
theorem verifyProof_linked {find : Hash → Option DagBlockHeader}
    (hl : Linked blake3 find (h :: rest)) (hp : ∀ x ∈ h :: rest, Proven blake3 genesisId x) :
    verifyProof blake3 (h :: rest).reverse (h.id blake3) genesisId =
      .ok (accumulatedWork (h :: rest)) := by
  induction rest generalizing h with
  | nil =>
    cases hl with
    | last found pointer =>
      have hid : h.id blake3 = genesisId :=
        (hp h (List.mem_singleton_self _)).1 (by simpa using pointer)
      have hw := workForTarget_le h.target
      simp [verifyProof, hid, verifyProofFrom, accumulatedWork, hw]
  | cons n rest ih =>
    cases hl with
    | step found pointer next =>
      have hrest := ih next fun x hx => hp x (List.mem_cons_of_mem _ hx)
      have hmeets : meetsTarget (h.id blake3) h.target = true :=
        (hp h (List.mem_cons_self ..)).2 fun hnil => by simp [hnil] at pointer
      rw [List.reverse_cons, verifyProof_concat hrest hmeets pointer, ← accumulatedWork_cons]

end Chains

namespace DagChain

variable {Tx : Type} {env : Env Tx} {c : DagChain Tx}

theorem interlinkForParent_of_lookup {sp : Hash} {header : DagBlockHeader}
    (h : c.headers.lookup sp = some header) :
    c.interlinkForParent sp = interlinkAfter sp header := by
  rw [interlinkForParent, h]
  rfl

/-- The proof walk collects a pointer walk that is not cut. -/
private theorem proofLoop_linked {l proof : List DagBlockHeader} {h : DagBlockHeader}
    {rest : List DagBlockHeader} {fuel : Nat} {seen : List Hash}
    (hl : Linked env.blake3 (c.proofHeader env) l) (hh : l = h :: rest) (hfuel : l.length ≤ fuel)
    (hseen : ∀ x ∈ l, x.id env.blake3 ∉ seen) :
    c.proofLoop env fuel (h.id env.blake3) seen proof = l.reverse ++ proof := by
  induction hl generalizing h rest fuel seen proof with
  | @last x found pointer =>
    cases hh
    obtain ⟨fuel, rfl⟩ : ∃ n, fuel = n + 1 := ⟨fuel - 1, by simp at hfuel; omega⟩
    rw [proofLoop, found]
    simp only
    rw [if_neg (hseen x (List.mem_singleton_self _)), pointer]
    rfl
  | @step x n tail found pointer next ih =>
    cases hh
    obtain ⟨fuel, rfl⟩ : ∃ n, fuel = n + 1 := ⟨fuel - 1, by simp at hfuel; omega⟩
    have hnodup := (Linked.step found pointer next).nodup
    rw [List.map_cons, List.nodup_cons] at hnodup
    have hne : n.id env.blake3 ≠ x.id env.blake3 := fun heq =>
      hnodup.1 (by rw [← heq]; exact List.mem_map_of_mem (List.mem_cons_self ..))
    rw [proofLoop, found]
    simp only
    rw [if_neg (hseen x (List.mem_cons_self ..)), pointer]
    simp only
    rw [if_neg hne, ih rfl (by simpa using hfuel)]
    · simp
    · intro y hy
      rw [List.mem_cons, not_or]
      refine ⟨fun heq => hnodup.1 ?_, hseen y (List.mem_cons_of_mem _ hy)⟩
      rw [← heq]
      exact List.mem_map_of_mem hy

/-- The longest walk that is not cut. -/
def maxProofHeaders : Nat := 1000001

/-- The proof of `h` is the pointer walk from it, unless the walk is cut. -/
theorem buildProofFor_linked {h : DagBlockHeader} {rest : List DagBlockHeader}
    (hl : Linked env.blake3 (c.proofHeader env) (h :: rest))
    (hlen : (h :: rest).length ≤ maxProofHeaders) :
    c.buildProofFor env (h.id env.blake3) = (h :: rest).reverse := by
  have hloop : c.proofLoop env maxProofHeaders (h.id env.blake3) [] [] =
      (h :: rest).reverse ++ [] := proofLoop_linked hl rfl hlen (by simp)
  rwa [List.append_nil] at hloop

end DagChain

end TaoDag.Dagvm
