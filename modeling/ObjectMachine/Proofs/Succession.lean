/-
# ObjectMachine.Proofs.Succession -- from a method to the next more general one

A method hands a message on to the next one by its own score alone: the search leaves out every
candidate that scores no higher than its signature. `Store.Visits` are the methods that a message
comes by if each of them hands it on.

* `Store.answers_lookupSuper` -- what the next method is.
* `Store.visits_of_ascending` -- a message comes by the candidates in the order of their scores.
* `Store.lookupSuper_enumerates` -- so it comes by each of them once.
-/
import Mathlib
import ObjectMachine.Proofs.Lookup

namespace ObjectMachine

open Search (counted)

namespace Store

variable {s : Store} {selector : Value} {arguments : Array Value} {wanted : Selector} {layout : Layout}
  {chain : List (Value × Protocol)} {candidates : List (Nat × Value)}
  {answer : Except Violation (Option Value)}

namespace Answers

variable (answers : Answers candidates answer)
include answers

theorem eq_of_answers {answer' : Except Violation (Option Value)}
    (answers' : Answers candidates answer') : answer = answer' := answers.eq_of_perm answers' (.refl _)

theorem none_iff : answer = .ok Option.none ↔ candidates = [] := by
  refine ⟨fun isNone => ?_, fun empty => answers.eq_of_answers (.none empty)⟩
  rw [isNone] at answers
  cases answers with
  | none empty => exact empty

theorem some_iff {method : Value} : answer = .ok (some method) ↔
      ∃ least, IsLeastScore candidates least ∧ scored candidates least = [(least, method)] := by
  refine ⟨fun isMethod => ?_, fun ⟨least, isLeast, only⟩ => answers.eq_of_answers (.unique isLeast only)⟩
  rw [isMethod] at answers
  cases answers with
  | unique isLeast only => exact ⟨_, isLeast, only⟩

theorem error_iff : (∃ violation, answer = .error violation) ↔
    ∃ least, IsLeastScore candidates least ∧ 2 ≤ (scored candidates least).length := by
  refine ⟨fun ⟨_, isError⟩ => ?_, fun ⟨least, isLeast, several⟩ =>
    ⟨_, answers.eq_of_answers (.ambiguous isLeast several)⟩⟩
  rw [isError] at answers
  cases answers with
  | ambiguous isLeast several => exact ⟨_, isLeast, several⟩

end Answers

section Next

variable {m : Method} {signature : Signature} {t : Tuple} {previous : Nat}

theorem lookupSuper_unscored (isSignature : s.heap.view? Signature m.signature = some signature)
    (isTuple : s.heap.view? Tuple signature.parameters = some t)
    (dispatched : ∀ argument ∈ arguments, ∃ chain, s.AnswersTo argument chain)
    (unscored : ∀ score, ¬ s.Scores m arguments score) :
    s.lookupSuper selector arguments m.signature = .ok none := by
  obtain ⟨score, isScore, iff⟩ := score_eq isSignature isTuple dispatched
  cases score with
  | none => simp [lookupSuper, isScore, bind, Except.bind, pure, Except.pure]
  | some score => exact absurd ((iff score).mp rfl) (unscored score)

/-- The next method is looked up among the candidates with a higher score. -/
theorem answers_lookupSuper (message : s.Message selector arguments wanted layout chain)
    (scores : s.Scores m arguments previous) :
    ∃ answer, Answers (counted (previous + 1) (s.candidates wanted arguments layout chain)) answer ∧
      s.lookupSuper selector arguments m.signature = answer.mapError fun _ =>
      .ambiguousSuperLookup := by
  obtain ⟨signature, t, isSignature, isTuple, -⟩ := id scores
  obtain ⟨score, isScore, iff⟩ := score_eq isSignature isTuple message.dispatched
  obtain ⟨search, isSearch, finds⟩ := Search.run_finds message (previous + 1)
  refine ⟨_, answers_of_finds finds, ?_⟩
  rw [(iff previous).mpr scores] at isScore
  simp only [lookupSuper, isScore, isSearch, bind, Except.bind]
  cases search.ambiguous <;> rfl

end Next

/-- The methods that a message comes by if it is handed on from method to method, beginning with
what has been looked up. -/
inductive Visits (s : Store) (selector : Value) (arguments : Array Value) :
    Except Violation (Option Value) → List Value → Prop
  | done : Visits s selector arguments (.ok none) []
  | next {v : Value} {m : Method} {rest : List Value} (isMethod : s.heap.view? Method v = some m)
      (on : Visits s selector arguments (s.lookupSuper selector arguments m.signature) rest) :
      Visits s selector arguments (.ok (some v)) (v :: rest)

/-- With ascending scores the first candidate is the only one with the least score, and the others
are those that score higher. -/
theorem scored_of_ascending {c : Nat × Value} {rest : List (Nat × Value)}
    (ascending : (c :: rest).Pairwise fun a b => a.1 < b.1) :
    IsLeastScore (c :: rest) c.1 ∧ scored (c :: rest) c.1 = [c] ∧
      counted (c.1 + 1) (c :: rest) = rest := by
  obtain ⟨higher, -⟩ := List.pairwise_cons.mp ascending
  refine ⟨List.forall_mem_cons.mpr ⟨le_rfl, fun d member => (higher d member).le⟩, ?_, ?_⟩
  · rw [scored, List.filter_cons_of_pos (by simp), List.filter_eq_nil_iff.mpr]
    intro d member
    have := higher d member
    simp only [decide_eq_true_eq]
    omega
  · rw [counted, List.filter_cons_of_neg (by simp), List.filter_eq_self]
    intro d member
    exact decide_eq_true (higher d member)

theorem counted_counted {low high : Nat} (le : low ≤ high) (candidates : List (Nat × Value)) :
    counted high (counted low candidates) = counted high candidates := by
  rw [counted, counted, List.filter_filter]
  refine List.filter_congr fun c _ => ?_
  by_cases isHigh : high ≤ c.1
  · simp [isHigh, le.trans isHigh]
  · simp [isHigh]

/-- The candidates from a score on are visited in ascending order. -/
theorem visits_of_ascending (message : s.Message selector arguments wanted layout chain)
    {visited : List (Nat × Value)} {low : Nat} (ascending : visited.Pairwise fun a b => a.1 < b.1)
    (perm : visited.Perm (counted low (s.candidates wanted arguments layout chain)))
    (answers : Answers (counted low (s.candidates wanted arguments layout chain)) answer)
    {found : Except Violation (Option Value)}
    (isFound : ∀ method, answer = .ok method → found = .ok method) :
    s.Visits selector arguments found (visited.map Prod.snd) := by
  induction visited generalizing low answer found with
  | nil =>
    rw [isFound none (answers.none_iff.mpr perm.nil_eq.symm)]
    exact .done
  | cons c rest ih =>
    obtain ⟨isLeast, only, others⟩ := scored_of_ascending ascending
    have member : c ∈ counted low (s.candidates wanted arguments layout chain) :=
      perm.subset List.mem_cons_self
    obtain ⟨isCandidate, isCounted⟩ := List.mem_filter.mp member
    have isNext : answer = .ok (some c.2) := answers.eq_of_perm (.unique isLeast only) perm.symm
    obtain ⟨-, m, named, isMethod, -, -, scores⟩ := mem_candidatesAmong.mp isCandidate
    obtain ⟨next, answers', isSuper⟩ := answers_lookupSuper message scores
    rw [isFound _ isNext]
    refine .next isMethod ?_
    rw [isSuper]
    refine ih (List.pairwise_cons.mp ascending).2 ?_ answers' fun method isMethod => by rw [isMethod]; rfl
    have above := perm.filter fun d => decide (c.1 + 1 ≤ d.1)
    have le : low ≤ c.1 + 1 := by simp at isCounted; omega
    rw [← counted_counted le]
    exact others ▸ above

theorem exists_ascending (distinct : (candidates.map Prod.fst).Nodup) :
    ∃ visited : List (Nat × Value), visited.Perm candidates ∧
      visited.Pairwise fun a b => a.1 < b.1 := by
  have perm := List.mergeSort_perm candidates fun a b => decide (a.1 ≤ b.1)
  refine ⟨_, perm, ?_⟩
  have sorted := @List.pairwise_mergeSort _ (fun a b : Nat × Value => decide (a.1 ≤ b.1))
    (fun _ _ _ first second => decide_eq_true ((of_decide_eq_true first).trans (of_decide_eq_true second)))
    (fun a b => by simpa using Nat.le_total a.1 b.1) candidates
  have apart := List.pairwise_map.mp ((perm.map Prod.fst).nodup_iff.mpr distinct)
  refine (sorted.and apart).imp fun ⟨le, ne⟩ => ?_
  exact lt_of_le_of_ne (of_decide_eq_true le) ne

/-- The next method is the only one with the least score among the candidates that score higher than
the signature. There is none if there is no such candidate or the signature does not suit the
arguments, and it is ambiguous if several have the least score. If all candidates score differently,
a message comes by each of them once, in ascending order, when it is handed on as far as it goes. -/
theorem lookupSuper_enumerates (message : s.Message selector arguments wanted layout chain) :
    (∀ (m : Method) signature t, s.heap.view? Signature m.signature = some signature →
      s.heap.view? Tuple signature.parameters = some t → ((∀ score, ¬ s.Scores m arguments score) →
      s.lookupSuper selector arguments m.signature = .ok none) ∧
      ∀ previous higher, s.Scores m arguments previous →
      higher = (s.candidates wanted arguments layout chain).filter (fun c => previous < c.1) →
      (s.lookupSuper selector arguments m.signature = .ok none ↔ higher = []) ∧
      (∀ method, s.lookupSuper selector arguments m.signature = .ok (some method) ↔
      ∃ least, IsLeastScore higher least ∧ scored higher least = [(least, method)]) ∧
      ∀ violation, s.lookupSuper selector arguments m.signature = .error violation ↔
      violation = .ambiguousSuperLookup ∧ violation.message = "ambiguous super lookup" ∧
      ∃ least, IsLeastScore higher least ∧ 2 ≤ (scored higher least).length) ∧
      (((s.candidates wanted arguments layout chain).map Prod.fst).Nodup →
      ∃ visited : List (Nat × Value), visited.Perm (s.candidates wanted arguments layout chain) ∧
      visited.Pairwise (fun a b => a.1 < b.1) ∧
      s.Visits selector arguments (s.lookup selector arguments) (visited.map Prod.snd)) := by
  refine ⟨fun m signature t isSignature isTuple =>
    ⟨lookupSuper_unscored isSignature isTuple message.dispatched, fun previous higher scores isHigher => ?_⟩,
    fun distinct => ?_⟩
  · obtain ⟨answer, answers, isAnswer⟩ := answers_lookupSuper message scores
    have same : counted (previous + 1) (s.candidates wanted arguments layout chain) = higher := isHigher.symm
    rw [same] at answers
    refine ⟨?_, fun method => ?_, fun violation => ?_⟩
    · rw [← answers.none_iff, isAnswer]
      cases answer <;> simp [Except.mapError]
    · rw [← answers.some_iff, isAnswer]
      cases answer <;> simp [Except.mapError]
    · rw [← answers.error_iff, isAnswer]
      cases answer with
      | ok method => simp [Except.mapError]
      | error violation' =>
        simp only [Except.mapError, Except.error.injEq, exists_eq', and_true]
        exact ⟨fun isError => ⟨isError.symm, isError ▸ rfl⟩, fun ⟨isError, _⟩ => isError.symm⟩
  · obtain ⟨visited, perm, ascending⟩ := exists_ascending distinct
    have all : counted 0 (s.candidates wanted arguments layout chain) =
        s.candidates wanted arguments layout chain := by simp [counted]
    exact ⟨visited, perm, ascending, visits_of_ascending message ascending (all.symm ▸ perm)
      (all.symm ▸ answers_lookup message) fun _ isMethod => isMethod⟩

theorem crossing_candidates : (crossing ⟨14⟩ ⟨13⟩ ⟨14⟩).candidates crossed #[.int 3]
      (crossLayout ⟨14⟩) (crossingChain ⟨13⟩ ⟨14⟩) = [(0, .object ⟨8⟩), (1, .object ⟨9⟩)] := by
  have climbs : (crossing ⟨14⟩ ⟨13⟩ ⟨14⟩).heap.Climbs (.object ⟨1⟩) (crossingChain ⟨13⟩ ⟨14⟩) :=
    .up rfl (.up rfl (.top rfl))
  have answers : (crossing ⟨14⟩ ⟨13⟩ ⟨14⟩).AnswersTo (.int 3) (crossingChain ⟨13⟩ ⟨14⟩) :=
    ⟨_, .integer (.itself rfl) rfl, climbs⟩
  have near : (crossing ⟨14⟩ ⟨13⟩ ⟨14⟩).IsCandidate crossed #[.int 3] (.object ⟨8⟩) 0 :=
    ⟨_, _, rfl, rfl, ⟨.refl _, rfl, .refl _, rfl⟩, _, _, rfl, rfl, by decide,
      .constrained rfl ⟨_, answers, rfl⟩ .nil⟩
  have far : (crossing ⟨14⟩ ⟨13⟩ ⟨14⟩).IsCandidate crossed #[.int 3] (.object ⟨9⟩) 1 :=
    ⟨_, _, rfl, rfl, ⟨.refl _, rfl, .refl _, rfl⟩, _, _, rfl, rfl, by decide,
      .constrained rfl ⟨_, answers, rfl⟩ .nil⟩
  have methods : (crossing ⟨14⟩ ⟨13⟩ ⟨14⟩).methodsOf (crossLayout ⟨14⟩)
      (crossingChain ⟨13⟩ ⟨14⟩) = [.object ⟨8⟩, .object ⟨9⟩] := by decide
  simp [candidates, candidatesAmong, methods, candidateScore?_eq_some.mpr near, candidateScore?_eq_some.mpr far]

/-- Integers answer to the near method and then to the far one. -/
theorem lookupSuper_enumerates_crossing :
    (crossing ⟨14⟩ ⟨13⟩ ⟨14⟩).Message (.object ⟨5⟩) #[.int 3] crossed
      (crossLayout ⟨14⟩) (crossingChain ⟨13⟩ ⟨14⟩) ∧
    (((crossing ⟨14⟩ ⟨13⟩ ⟨14⟩).candidates crossed #[.int 3]
        (crossLayout ⟨14⟩) (crossingChain ⟨13⟩ ⟨14⟩)).map Prod.fst).Nodup ∧
    ∃ visited : List (Nat × Value), visited.Perm [(0, .object ⟨8⟩), (1, .object ⟨9⟩)] ∧
      visited.Pairwise (fun a b => a.1 < b.1) ∧
      (crossing ⟨14⟩ ⟨13⟩ ⟨14⟩).Visits (.object ⟨5⟩) #[.int 3]
        ((crossing ⟨14⟩ ⟨13⟩ ⟨14⟩).lookup (.object ⟨5⟩) #[.int 3]) (visited.map Prod.snd) := by
  have message := @crossing_message ⟨14⟩ ⟨13⟩ ⟨14⟩ (by decide)
  have listed := crossing_candidates
  obtain ⟨-, enumerates⟩ := lookupSuper_enumerates message
  rw [listed] at enumerates ⊢
  exact ⟨message, by decide, enumerates (by decide)⟩

end Store

end ObjectMachine
