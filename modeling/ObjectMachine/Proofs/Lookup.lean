/-
# ObjectMachine.Proofs.Lookup -- the method that answers a message

What a message is searched for is said here without the search. `Store.Scores` gives the score of a
method by the distances of its parameters on the chains of the arguments, `Store.IsCandidate` says
which methods count, and `Store.candidates` lists them with their scores, as often as the tables on
the way up hold them.

* `Search.Finds.consider`, `Search.finds_foldl` -- the search knows the least score among the
  candidates it has seen, the first method with that score, and whether there is another.
* `Search.run_finds` -- the search sees the candidates of all tables.
* `Store.lookup_unique_minimum` -- the only candidate with the least score answers, and it matters
  neither where a table holds a method nor which table does.
-/
import Mathlib
import ObjectMachine.Proofs.Equality

namespace ObjectMachine

open Heap (cast_eq_ok view?_eq_some)

namespace Search

/-- What a search knows after it has seen the candidates of a list: the least score, the first
candidate that has it, and whether there are others. -/
inductive Finds (candidates : List (Nat × Value)) : Search → Prop
  | nothing {minScore : Nat} (empty : candidates = []) : Finds candidates { minScore }
  | best {minScore least : Nat} {method : Value} {others : List (Nat × Value)} {ambiguous : Bool}
      (atLeast : candidates.filter (fun c => c.1 = least) = (least, method) :: others)
      (least_le : ∀ c ∈ candidates, least ≤ c.1) (others_iff : ambiguous = true ↔ others ≠ []) :
      Finds candidates { minScore, best := some (least, method), ambiguous }

variable {candidates : List (Nat × Value)} {search : Search}

theorem Finds.consider (finds : search.Finds candidates) {score : Nat}
    (high : search.minScore ≤ score) (method : Value) :
    (search.consider score method).Finds (candidates ++ [(score, method)]) := by
  unfold Search.consider
  rw [if_neg (by omega)]
  cases finds with
  | nothing empty =>
    subst empty
    exact @Finds.best _ _ _ _ [] _ (by simp) (by simp) (by simp)
  | @best minScore least first others ambiguous atLeast least_le others_iff =>
    simp only
    by_cases tie : score = least
    · subst tie
      rw [if_pos rfl]
      refine @Finds.best _ _ _ _ (others ++ [(score, method)]) _ ?_ ?_ (by simp)
      · simp [List.filter_append, atLeast]
      · exact List.forall_mem_append.mpr ⟨least_le, by simp⟩
    rw [if_neg tie]
    by_cases worse : least < score
    · rw [if_pos worse]
      refine @Finds.best _ _ _ _ others _ ?_ ?_ others_iff
      · simp [List.filter_append, atLeast, tie]
      · exact List.forall_mem_append.mpr ⟨least_le, by simpa using worse.le⟩
    · rw [if_neg worse]
      have none : candidates.filter (fun c => c.1 = score) = [] := by
        rw [List.filter_eq_nil_iff]
        intro c member isScore
        have := least_le c member
        simp only [decide_eq_true_eq] at isScore
        omega
      refine @Finds.best _ _ _ _ [] _ ?_ ?_ (by simp)
      · simp [List.filter_append, none]
      · refine List.forall_mem_append.mpr ⟨fun c member => ?_, by simp⟩
        have := least_le c member
        omega

theorem minScore_consider (score : Nat) (method : Value) :
    (search.consider score method).minScore = search.minScore := by
  unfold Search.consider
  split
  · rfl
  · split
    · rfl
    · split
      · rfl
      · split <;> rfl

/-- The candidates that count for a search. -/
def counted (minScore : Nat) (candidates : List (Nat × Value)) : List (Nat × Value) :=
  candidates.filter fun c => minScore ≤ c.1

theorem finds_foldl {seen : List (Nat × Value)}
    (finds : search.Finds (counted search.minScore seen)) :
    (candidates.foldl (fun search c => search.consider c.1 c.2) search).Finds
      (counted search.minScore (seen ++ candidates)) := by
  induction candidates generalizing search seen with
  | nil => simpa using finds
  | cons c candidates ih =>
    have next : (search.consider c.1 c.2).Finds
        (counted (search.consider c.1 c.2).minScore (seen ++ [c])) := by
      rw [minScore_consider]
      by_cases high : search.minScore ≤ c.1
      · have grown := finds.consider high c.2
        simpa [counted, List.filter_append, high] using grown
      · have same : search.consider c.1 c.2 = search := if_pos (by omega)
        simpa [counted, List.filter_append, high, same] using finds
    have rest := ih next
    rw [minScore_consider, List.append_assoc] at rest
    exact rest

end Search

namespace Store

/-- The layout through which a value is dispatched: that of the integers, or the one its header
leads to. -/
inductive DispatchedBy (s : Store) (v : Value) : Layout → Prop
  | integer {n : Int} {l : Layout} (stands : s.heap.StandsFor v (.int n))
      (found : s.heap.view? Layout (.object (s.roots.layout .smallInteger)) = some l) :
      DispatchedBy s v l
  | object {r layout : Ref} {o : Object} {l : Layout} (stands : s.heap.StandsFor v (.object r))
      (isObject : s.heap.object? r = some o) (header : o.header = .layout layout)
      (found : s.heap.view? Layout (.object layout) = some l) : DispatchedBy s v l

/-- The protocols that a value answers to, nearest first. -/
def AnswersTo (s : Store) (v : Value) (chain : List (Value × Protocol)) : Prop :=
  ∃ l, s.DispatchedBy v l ∧ s.heap.Climbs l.protocol chain

/-- The protocol is `steps` steps up the chain of the argument. -/
def Distance (s : Store) (argument protocol : Value) (steps : Nat) : Prop :=
  ∃ chain, s.AnswersTo argument chain ∧ (chain.map Prod.fst)[steps]? = some protocol

/-- The sum of the distances of parameters from their arguments. Parameters that are no protocols do
not count. -/
inductive Sums (s : Store) : List (Value × Value) → Nat → Prop
  | nil : Sums s [] 0
  | unconstrained {parameter argument : Value} {rest : List (Value × Value)} {sum : Nat}
      (plain : s.heap.is Protocol parameter = false) (sums : Sums s rest sum) :
      Sums s ((parameter, argument) :: rest) sum
  | constrained {parameter argument : Value} {rest : List (Value × Value)} {steps sum : Nat}
      (isProtocol : s.heap.is Protocol parameter = true)
      (distance : s.Distance argument parameter steps) (sums : Sums s rest sum) :
      Sums s ((parameter, argument) :: rest) (steps + sum)

/-- The score of a method: there are not more parameters than arguments, and their distances sum
up. -/
def Scores (s : Store) (m : Method) (arguments : Array Value) (score : Nat) : Prop :=
  ∃ signature t, s.heap.view? Signature m.signature = some signature ∧
    s.heap.view? Tuple signature.parameters = some t ∧ t.elements.size ≤ arguments.size ∧
    s.Sums (t.elements.toList.zip arguments.toList) score

/-- The value is a method for the message, and has this score. -/
def IsCandidate (s : Store) (wanted : Selector) (arguments : Array Value) (v : Value) (score : Nat) :
    Prop :=
  ∃ m named, s.heap.view? Method v = some m ∧ s.heap.view? Selector m.selector = some named ∧
    s.heap.SameMessage named wanted ∧ s.Scores m arguments score

variable {s s' : Store} {v : Value} {arguments : Array Value} {wanted : Selector}

theorem layoutOf_eq {l : Layout} (dispatched : s.DispatchedBy v l) : s.layoutOf v = .ok l := by
  cases dispatched with
  | integer stands found =>
    simp [layoutOf, Heap.deref_eq stands, cast_eq_ok.mpr found, bind, Except.bind]
  | @object r layout o _ stands isObject header found =>
    obtain ⟨_, body⟩ := o
    subst header
    have isLayout : s.heap.layoutOf (.object r) = .ok (.object layout) := by
      simp [Heap.layoutOf, Heap.objectOf?, Value.asRef?, isObject]
    simp [layoutOf, Heap.deref_eq stands, isLayout, cast_eq_ok.mpr found, bind, Except.bind]

theorem AnswersTo.unique {chain chain' : List (Value × Protocol)} (answers : s.AnswersTo v chain)
    (answers' : s.AnswersTo v chain') : chain = chain' := by
  obtain ⟨l, dispatched, climbs⟩ := answers
  obtain ⟨l', dispatched', climbs'⟩ := answers'
  cases (layoutOf_eq dispatched).symm.trans (layoutOf_eq dispatched')
  exact climbs.unique climbs'

theorem Distance.unique {protocol : Value} {steps steps' : Nat}
    (distance : s.Distance v protocol steps) (distance' : s.Distance v protocol steps') :
    steps = steps' := by
  obtain ⟨chain, answers, found⟩ := distance
  obtain ⟨chain', answers', found'⟩ := distance'
  cases answers.unique answers'
  obtain ⟨l, -, climbs⟩ := answers
  exact (List.getElem?_inj (List.getElem?_eq_some_iff.mp found).1 climbs.nodup).mp (found.trans found'.symm)

theorem Sums.unique {pairs : List (Value × Value)} {sum sum' : Nat} (sums : s.Sums pairs sum)
    (sums' : s.Sums pairs sum') : sum = sum' := by
  induction sums generalizing sum' with
  | nil =>
    cases sums'
    rfl
  | unconstrained plain _ ih =>
    cases sums' with
    | unconstrained _ sums' => exact ih sums'
    | constrained isProtocol => exact absurd (plain.symm.trans isProtocol) (by simp)
  | constrained isProtocol distance _ ih =>
    cases sums' with
    | unconstrained plain => exact absurd (plain.symm.trans isProtocol) (by simp)
    | constrained _ distance' sums' => rw [distance.unique distance', ih sums']

theorem Scores.unique {m : Method} {score score' : Nat} (scores : s.Scores m arguments score)
    (scores' : s.Scores m arguments score') : score = score' := by
  obtain ⟨signature, t, isSignature, isTuple, -, sums⟩ := scores
  obtain ⟨signature', t', isSignature', isTuple', -, sums'⟩ := scores'
  cases isSignature.symm.trans isSignature'
  cases isTuple.symm.trans isTuple'
  exact sums.unique sums'

theorem IsCandidate.unique {score score' : Nat} (candidate : s.IsCandidate wanted arguments v score)
    (candidate' : s.IsCandidate wanted arguments v score') : score = score' := by
  obtain ⟨m, _, isMethod, -, -, scores⟩ := candidate
  obtain ⟨m', _, isMethod', -, -, scores'⟩ := candidate'
  cases isMethod.symm.trans isMethod'
  exact scores.unique scores'

section Scoring

/-- Distances are found on the chain of the argument. -/
theorem distance_eq {chain : List (Value × Protocol)} {l : Layout} {protocol : Value}
    (climbs : s.heap.Climbs l.protocol chain) : ∃ answer, s.heap.distance l protocol = .ok answer ∧
      ∀ steps, answer = some steps ↔ (chain.map Prod.fst)[steps]? = some protocol := by
  refine ⟨_, by simp [Heap.distance, Heap.chain_eq climbs, bind, Except.bind, pure, Except.pure]; rfl,
    fun steps => ?_⟩
  have nodup := climbs.nodup
  rw [show chain.findIdx? (fun entry => entry.1 == protocol) =
    (chain.map Prod.fst).findIdx? (· == protocol) by rw [List.findIdx?_map]; rfl]
  generalize chain.map Prod.fst = values at nodup ⊢
  rw [List.findIdx?_eq_some_iff_getElem]
  constructor
  · rintro ⟨low, here, -⟩
    simpa [List.getElem?_eq_getElem low] using here
  · intro found
    obtain ⟨low, here⟩ := List.getElem?_eq_some_iff.mp found
    refine ⟨low, by simpa using here, fun j before => ?_⟩
    have differs : values[j] ≠ values[steps] := fun same =>
      absurd ((nodup.getElem_inj_iff).mp same) (by omega)
    simpa [here] using differs

theorem scoreFrom_eq {pairs : List (Value × Value)}
    (dispatched : ∀ pair ∈ pairs, ∃ chain, s.AnswersTo pair.2 chain) (start : Nat) :
    ∃ answer, s.scoreFrom start pairs = .ok answer ∧
      ∀ score, answer = some score ↔ ∃ sum, s.Sums pairs sum ∧ score = start + sum := by
  induction pairs generalizing start with
  | nil =>
    refine ⟨some start, rfl, fun score => ⟨?_, ?_⟩⟩
    · rintro ⟨⟩
      exact ⟨0, .nil, rfl⟩
    · rintro ⟨_, ⟨⟩, rfl⟩
      rfl
  | cons pair pairs ih =>
    obtain ⟨parameter, argument⟩ := pair
    have rest := ih fun pair member => dispatched pair (List.mem_cons_of_mem _ member)
    unfold scoreFrom
    by_cases isProtocol : s.heap.is Protocol parameter = true
    · rw [if_pos isProtocol]
      obtain ⟨chain, l, isLayout, climbs⟩ := dispatched _ List.mem_cons_self
      obtain ⟨found, isFound, found_iff⟩ := @distance_eq s chain l parameter climbs
      rw [layoutOf_eq isLayout]
      simp only [bind, Except.bind, isFound]
      cases found with
      | none =>
        refine ⟨none, rfl, fun score => ⟨by simp, ?_⟩⟩
        rintro ⟨sum, sums, -⟩
        cases sums with
        | unconstrained plain => exact absurd (plain.symm.trans isProtocol) (by simp)
        | constrained _ distance =>
          obtain ⟨chain', answers', here⟩ := distance
          cases answers'.unique ⟨l, isLayout, climbs⟩
          exact absurd ((found_iff _).mpr here) (by simp)
      | some steps =>
        have distance : s.Distance argument parameter steps :=
          ⟨chain, ⟨l, isLayout, climbs⟩, (found_iff steps).mp rfl⟩
        obtain ⟨answer, isAnswer, answer_iff⟩ := rest (start + steps)
        refine ⟨answer, isAnswer, fun score => (answer_iff score).trans ⟨?_, ?_⟩⟩
        · rintro ⟨sum, sums, rfl⟩
          exact ⟨steps + sum, .constrained isProtocol distance sums, by omega⟩
        · rintro ⟨_, sums, rfl⟩
          cases sums with
          | unconstrained plain => exact absurd (plain.symm.trans isProtocol) (by simp)
          | @constrained _ _ _ steps' sum _ distance' sums =>
            cases distance.unique distance'
            exact ⟨sum, sums, by omega⟩
    · rw [if_neg isProtocol]
      have plain : s.heap.is Protocol parameter = false := by simpa using isProtocol
      obtain ⟨answer, isAnswer, answer_iff⟩ := rest start
      refine ⟨answer, isAnswer, fun score => (answer_iff score).trans ⟨?_, ?_⟩⟩
      · rintro ⟨sum, sums, rfl⟩
        exact ⟨sum, .unconstrained plain sums, rfl⟩
      · rintro ⟨sum, sums, rfl⟩
        cases sums with
        | unconstrained _ sums => exact ⟨sum, sums, rfl⟩
        | constrained isProtocol' => exact absurd isProtocol' isProtocol

theorem score_eq {m : Method} {signature : Signature} {t : Tuple}
    (isSignature : s.heap.view? Signature m.signature = some signature)
    (isTuple : s.heap.view? Tuple signature.parameters = some t)
    (dispatched : ∀ argument ∈ arguments, ∃ chain, s.AnswersTo argument chain) :
    ∃ answer, s.score m.signature arguments = .ok answer ∧
      ∀ score, answer = some score ↔ s.Scores m arguments score := by
  have elements : s.heap.tupleElements signature.parameters = .ok t.elements := by
    simp [Heap.tupleElements, cast_eq_ok.mpr isTuple, bind, Except.bind, pure, Except.pure]
  simp only [Store.score, cast_eq_ok.mpr isSignature, elements, bind, Except.bind]
  have iff : ∀ score, s.Scores m arguments score ↔ t.elements.size ≤ arguments.size ∧
      s.Sums (t.elements.toList.zip arguments.toList) score := by
    intro score
    constructor
    · rintro ⟨_, _, isSignature', isTuple', le, sums⟩
      cases isSignature.symm.trans isSignature'
      cases isTuple.symm.trans isTuple'
      exact ⟨le, sums⟩
    · rintro ⟨le, sums⟩
      exact ⟨signature, t, isSignature, isTuple, le, sums⟩
  by_cases more : arguments.size < t.elements.size
  · rw [if_pos more]
    refine ⟨none, rfl, fun score => ⟨by simp, fun scores => ?_⟩⟩
    have := ((iff score).mp scores).1
    omega
  · rw [if_neg more]
    obtain ⟨answer, isAnswer, answer_iff⟩ := @scoreFrom_eq s (t.elements.toList.zip arguments.toList)
      (fun pair member => dispatched pair.2 (Array.mem_toList_iff.mp (List.of_mem_zip member).2)) 0
    refine ⟨answer, isAnswer, fun score => ?_⟩
    rw [answer_iff, iff]
    constructor
    · rintro ⟨sum, sums, rfl⟩
      exact ⟨by omega, by simpa using sums⟩
    · rintro ⟨-, sums⟩
      exact ⟨score, sums, by omega⟩

end Scoring

open Classical in
/-- The score of a method for the message, if it is a candidate. -/
noncomputable def candidateScore? (s : Store) (wanted : Selector) (arguments : Array Value)
    (v : Value) : Option Nat :=
  if candidate : ∃ score, s.IsCandidate wanted arguments v score then some candidate.choose else none

theorem candidateScore?_eq_some {score : Nat} :
    s.candidateScore? wanted arguments v = some score ↔ s.IsCandidate wanted arguments v score := by
  unfold candidateScore?
  constructor
  · intro isScore
    split at isScore
    · rename_i candidate
      cases isScore
      exact candidate.choose_spec
    · cases isScore
  · intro candidate
    have some : ∃ score, s.IsCandidate wanted arguments v score := ⟨score, candidate⟩
    rw [dif_pos some, some.choose_spec.unique candidate]

/-- The candidates among some methods, as often as they occur. -/
noncomputable def candidatesAmong (s : Store) (wanted : Selector) (arguments : Array Value)
    (methods : List Value) : List (Nat × Value) :=
  methods.filterMap fun v => (s.candidateScore? wanted arguments v).map fun score => (score, v)

theorem mem_candidatesAmong {methods : List Value} {score : Nat} :
    (score, v) ∈ s.candidatesAmong wanted arguments methods ↔
      v ∈ methods ∧ s.IsCandidate wanted arguments v score := by
  simp [candidatesAmong, List.mem_filterMap, candidateScore?_eq_some]

/-- The value is a method of a selector and with a signature. -/
structure HoldsMethod (s : Store) (v : Value) (m : Method) (named : Selector) (signature : Signature)
    (t : Tuple) : Prop where
  isMethod : s.heap.view? Method v = some m
  isSelector : s.heap.view? Selector m.selector = some named
  wellNamed : s.heap.WellNamed named
  isSignature : s.heap.view? Signature m.signature = some signature
  parameters : s.heap.view? Tuple signature.parameters = some t

/-- The methods of a table. -/
def methodsIn (s : Store) (table : Value) : List Value :=
  ((s.heap.view? Tuple table).map fun t => t.elements.toList).getD []

/-- The methods of the layout of a receiver, and of the protocols on its chain. -/
def methodsOf (s : Store) (layout : Layout) (chain : List (Value × Protocol)) : List Value :=
  (layout.methods :: chain.map fun entry => entry.2.methods).flatMap s.methodsIn

/-- The candidates for a message, as often as the tables on the way up hold them. -/
noncomputable def candidates (s : Store) (wanted : Selector) (arguments : Array Value)
    (layout : Layout) (chain : List (Value × Protocol)) : List (Nat × Value) :=
  s.candidatesAmong wanted arguments (s.methodsOf layout chain)

/-- A table that holds methods. -/
def HoldsMethods (s : Store) (table : Value) : Prop := s.heap.is Tuple table = true ∧
    ∀ v ∈ s.methodsIn table, ∃ m named signature t, s.HoldsMethod v m named signature t

/-- A message to a receiver with this layout and chain of protocols. Every argument can be
dispatched, so none is a signal, and the tables hold methods. -/
structure Message (s : Store) (selector : Value) (arguments : Array Value) (wanted : Selector)
    (layout : Layout) (chain : List (Value × Protocol)) : Prop where
  receiver : ∃ v, arguments[0]? = some v ∧ s.DispatchedBy v layout
  climbs : s.heap.Climbs layout.protocol chain
  dispatched : ∀ argument ∈ arguments, ∃ chain, s.AnswersTo argument chain
  isSelector : s.heap.view? Selector selector = some wanted
  wellNamed : s.heap.WellNamed wanted
  tables : ∀ table ∈ layout.methods :: chain.map fun entry => entry.2.methods, s.HoldsMethods table

end Store

namespace Search

variable {s : Store} {arguments : Array Value} {wanted : Selector}

/-- A search for candidates among methods. -/
def among (search : Search) (candidates : List (Nat × Value)) : Search :=
  candidates.foldl (fun search c => search.consider c.1 c.2) search

/-- One method of a table is taken into account if it is a candidate. -/
theorem consider_method {v : Value} {m : Method} {named : Selector} {signature : Signature} {t : Tuple}
    (wellNamed : s.heap.WellNamed wanted)
    (dispatched : ∀ argument ∈ arguments, ∃ chain, s.AnswersTo argument chain)
    (holds : s.HoldsMethod v m named signature t) (search : Search) : (do
      let m ← s.heap.cast Method v
      let named ← s.heap.cast Selector m.selector
      if ← s.heap.selectorsEqual named wanted then
        match ← s.score m.signature arguments with
        | none => pure search
        | some score => pure (search.consider score v)
      else
        pure search : Except Violation Search) =
      .ok (search.among (s.candidatesAmong wanted arguments [v])) := by
  obtain ⟨answer, isAnswer, answer_iff⟩ := Store.score_eq holds.isSignature holds.parameters dispatched
  have decides := Heap.selectorsEqual_decides holds.wellNamed wellNamed
  have candidate_iff : ∀ score, s.IsCandidate wanted arguments v score ↔
      s.heap.SameMessage named wanted ∧ answer = some score := by
    intro score
    rw [answer_iff]
    constructor
    · rintro ⟨m', named', isMethod', isSelector', same, scores⟩
      cases holds.isMethod.symm.trans isMethod'
      cases holds.isSelector.symm.trans isSelector'
      exact ⟨same, scores⟩
    · rintro ⟨same, scores⟩
      exact ⟨m, named, holds.isMethod, holds.isSelector, same, scores⟩
  simp only [cast_eq_ok.mpr holds.isMethod, cast_eq_ok.mpr holds.isSelector, bind, Except.bind]
  by_cases same : s.heap.SameMessage named wanted
  · have score : s.candidateScore? wanted arguments v = answer := by
      apply Option.ext
      intro score
      rw [Store.candidateScore?_eq_some, candidate_iff]
      simp [same]
    simp only [decides.of_holds same, if_true, isAnswer]
    cases answer <;> simp [Store.candidatesAmong, score, among, pure, Except.pure]
  · have score : s.candidateScore? wanted arguments v = none := by
      rw [Option.eq_none_iff_forall_ne_some]
      intro n isScore
      rw [Store.candidateScore?_eq_some, candidate_iff] at isScore
      exact same isScore.1
    simp [decides.of_not same, Store.candidatesAmong, score, among, pure, Except.pure]

theorem among_append (search : Search) (methods methods' : List Value) :
    search.among (s.candidatesAmong wanted arguments (methods ++ methods')) =
      (search.among (s.candidatesAmong wanted arguments methods)).among
        (s.candidatesAmong wanted arguments methods') := by
  simp [among, Store.candidatesAmong, List.filterMap_append]

theorem inTable_eq {table : Value} (wellNamed : s.heap.WellNamed wanted)
    (dispatched : ∀ argument ∈ arguments, ∃ chain, s.AnswersTo argument chain)
    (holds : s.HoldsMethods table) (search : Search) :
    inTable s wanted arguments search table =
      .ok (search.among (s.candidatesAmong wanted arguments (s.methodsIn table))) := by
  obtain ⟨isTuple, methods⟩ := holds
  obtain ⟨t, isTuple⟩ := Heap.is_iff.mp isTuple
  have listed : s.methodsIn table = t.elements.toList := by simp [Store.methodsIn, isTuple]
  have elements : s.heap.tupleElements table = .ok t.elements := by
    simp [Heap.tupleElements, cast_eq_ok.mpr isTuple, bind, Except.bind, pure, Except.pure]
  rw [listed] at methods ⊢
  rw [inTable, elements]
  change t.elements.foldlM _ search = _
  rw [← Array.foldlM_toList]
  generalize t.elements.toList = list at methods
  induction list generalizing search with
  | nil => rfl
  | cons v list ih =>
    obtain ⟨m, named, signature, parameters, holds⟩ := methods v List.mem_cons_self
    have considered := consider_method wellNamed dispatched holds search
    rw [List.foldlM_cons, ← List.singleton_append, among_append]
    refine (congrArg (· >>= _) considered).trans ?_
    exact ih _ fun w member => methods w (List.mem_cons_of_mem _ member)

/-- The search sees the candidates of all tables on the way up. -/
theorem run_finds {selector : Value} {layout : Layout} {chain : List (Value × Protocol)}
    (message : s.Message selector arguments wanted layout chain) (minScore : Nat) :
    ∃ search, run s minScore selector arguments = .ok search ∧
      search.Finds (counted minScore (s.candidates wanted arguments layout chain)) := by
  obtain ⟨v, isReceiver, isLayout⟩ := message.receiver
  have tables := message.tables
  refine ⟨Search.among { minScore } (s.candidates wanted arguments layout chain), ?_, ?_⟩
  · simp only [run, isReceiver, Store.layoutOf_eq isLayout, cast_eq_ok.mpr message.isSelector,
      Heap.chain_eq message.climbs, bind, Except.bind, Store.candidates, Store.methodsOf]
    generalize ({ minScore } : Search) = search
    generalize (layout.methods :: chain.map fun entry => entry.2.methods) = list at tables ⊢
    induction list generalizing search with
    | nil => rfl
    | cons table list ih =>
      rw [List.foldlM_cons, inTable_eq message.wellNamed message.dispatched
        (tables table List.mem_cons_self), List.flatMap_cons, among_append]
      exact ih _ fun other member => tables other (List.mem_cons_of_mem _ member)
  · exact @finds_foldl _ { minScore } [] (.nothing rfl)

end Search

/-- A body without the table of methods that a layout or a protocol refers to. -/
def Body.untabled : Body → Body
  | .layout l => .layout { l with methods := .int 0 }
  | .protocol p => .protocol { p with methods := .int 0 }
  | body => body

namespace Store

/-- Two stores that differ in nothing but the tables to which layouts and protocols refer. -/
structure Retabled (s s' : Store) : Prop where
  roots : s'.roots = s.roots
  objects : ∀ r, (s'.heap.object? r).map (fun o => (o.header, o.body.untabled)) =
    (s.heap.object? r).map fun o => (o.header, o.body.untabled)

variable {s s' : Store} {v : Value} {arguments : Array Value} {wanted : Selector}
variable {candidates : List (Nat × Value)}

namespace Retabled

variable (retabled : s.Retabled s')
include retabled

theorem symm : s'.Retabled s := ⟨retabled.roots.symm, fun r => (retabled.objects r).symm⟩

theorem object {r : Ref} {o : Object} (found : s.heap.object? r = some o) :
    ∃ o', s'.heap.object? r = some o' ∧ o'.header = o.header ∧
      o'.body.untabled = o.body.untabled := by
  have same := retabled.objects r
  rw [found, Option.map_some, Option.map_eq_some_iff] at same
  obtain ⟨o', found', same⟩ := same
  exact ⟨o', found', (Prod.mk.inj same).1, (Prod.mk.inj same).2⟩

theorem bodyOf? {body : Body} (found : s.heap.bodyOf? v = some body) :
    ∃ body', s'.heap.bodyOf? v = some body' ∧ body'.untabled = body.untabled := by
  obtain ⟨r, o, rfl, isObject, rfl⟩ := Heap.bodyOf?_eq_some.mp found
  obtain ⟨o', isObject', -, same⟩ := retabled.object isObject
  exact ⟨o'.body, Heap.bodyOf?_eq_some.mpr ⟨r, o', rfl, isObject', rfl⟩, same⟩

/-- Layouts keep their protocols, and protocols their parents. -/
theorem layout {l : Layout} (found : s.heap.view? Layout v = some l) :
    ∃ l', s'.heap.view? Layout v = some l' ∧ l'.protocol = l.protocol := by
  obtain ⟨body, isBody, same⟩ := retabled.bodyOf? (view?_eq_some.mp found)
  cases body <;> simp only [Body.untabled, HeapKind.wrap, reduceCtorEq, Body.layout.injEq] at same
  exact ⟨_, view?_eq_some.mpr isBody, by injection same⟩

theorem protocol {p : Protocol} (found : s.heap.view? Protocol v = some p) :
    ∃ p', s'.heap.view? Protocol v = some p' ∧ p'.parent = p.parent := by
  obtain ⟨body, isBody, same⟩ := retabled.bodyOf? (view?_eq_some.mp found)
  cases body <;> simp only [Body.untabled, HeapKind.wrap, reduceCtorEq, Body.protocol.injEq] at same
  exact ⟨_, view?_eq_some.mpr isBody, by injection same⟩

/-- All other objects are the same. -/
theorem view? {α : Type} [HeapKind α] {data : α} (found : s.heap.view? α v = some data)
    (other : HeapKind.kind α ≠ .layout ∧ HeapKind.kind α ≠ .protocol := by decide) :
    s'.heap.view? α v = some data := by
  obtain ⟨body, isBody, same⟩ := retabled.bodyOf? (view?_eq_some.mp found)
  have kind := HeapKind.kind_wrap data
  refine view?_eq_some.mpr (isBody.trans (congrArg some ?_))
  generalize HeapKind.wrap data = old at same kind
  cases old <;> cases body <;> simp_all [Body.untabled, Body.kind]

theorem view?_eq {α : Type} [HeapKind α]
    (other : HeapKind.kind α ≠ .layout ∧ HeapKind.kind α ≠ .protocol := by decide) :
    s'.heap.view? α v = s.heap.view? α v := by
  apply Option.ext
  intro data
  exact ⟨fun found => retabled.symm.view? found other, fun found => retabled.view? found other⟩

theorem is_protocol : s'.heap.is Protocol v = s.heap.is Protocol v := by
  rw [Bool.eq_iff_iff, Heap.is_iff, Heap.is_iff]
  constructor
  · rintro ⟨p, found⟩
    obtain ⟨p', found', -⟩ := retabled.symm.protocol found
    exact ⟨p', found'⟩
  · rintro ⟨p, found⟩
    obtain ⟨p', found', -⟩ := retabled.protocol found
    exact ⟨p', found'⟩

/-- Forwarders lead to the same values. -/
theorem standsFor {w : Value} (stands : s.heap.StandsFor v w) : s'.heap.StandsFor v w := by
  induction stands with
  | itself plain => exact .itself (retabled.view?_eq.trans plain)
  | through forwards _ ih =>
    obtain ⟨f, d, isForwarder, isDescriptor, isTarget⟩ := forwards
    exact .through ⟨f, d, retabled.view? isForwarder, retabled.view? isDescriptor, isTarget⟩ ih

theorem climbs {chain : List (Value × Protocol)} (climbs : s.heap.Climbs v chain) :
    ∃ chain', s'.heap.Climbs v chain' ∧ chain'.map Prod.fst = chain.map Prod.fst := by
  induction climbs with
  | @top v plain =>
    refine ⟨[], .top ?_, rfl⟩
    have same := retabled.is_protocol (v := v)
    simpa [Heap.is, plain] using same
  | up found _ ih =>
    obtain ⟨p', found', isParent⟩ := retabled.protocol found
    obtain ⟨chain', climbs', same⟩ := ih
    exact ⟨_, .up found' (isParent ▸ climbs'), by simp [same]⟩

theorem answersTo {chain : List (Value × Protocol)} (answers : s.AnswersTo v chain) :
    ∃ chain', s'.AnswersTo v chain' ∧ chain'.map Prod.fst = chain.map Prod.fst := by
  obtain ⟨l, dispatched, climbs⟩ := answers
  obtain ⟨chain', climbs', same⟩ := retabled.climbs climbs
  cases dispatched with
  | integer stands found =>
    obtain ⟨l', found', isProtocol⟩ := retabled.layout found
    rw [← retabled.roots] at found'
    exact ⟨chain', ⟨l', .integer (retabled.standsFor stands) found', isProtocol ▸ climbs'⟩, same⟩
  | object stands isObject header found =>
    obtain ⟨l', found', isProtocol⟩ := retabled.layout found
    obtain ⟨o', isObject', sameHeader, -⟩ := retabled.object isObject
    exact ⟨chain', ⟨l', .object (retabled.standsFor stands) isObject' (sameHeader.trans header) found',
      isProtocol ▸ climbs'⟩, same⟩

theorem distance {parameter : Value} {steps : Nat} (distance : s.Distance v parameter steps) :
    s'.Distance v parameter steps := by
  obtain ⟨chain, answers, found⟩ := distance
  obtain ⟨chain', answers', same⟩ := retabled.answersTo answers
  exact ⟨chain', answers', same ▸ found⟩

theorem sums {pairs : List (Value × Value)} {sum : Nat} (sums : s.Sums pairs sum) :
    s'.Sums pairs sum := by
  induction sums with
  | nil => exact .nil
  | unconstrained plain _ ih => exact .unconstrained (retabled.is_protocol.trans plain) ih
  | constrained isProtocol distance _ ih =>
    exact .constrained (retabled.is_protocol.trans isProtocol) (retabled.distance distance) ih

theorem same {a b : Value} (same : s.heap.Same a b) : s'.heap.Same a b := by
  induction same with
  | refl v => exact .refl v
  | string left right =>
    exact .string (retabled.view? left) (retabled.view? right)
  | tuple left right size _ ih =>
    exact .tuple (retabled.view? left) (retabled.view? right) size ih
  | selector left right _ argc _ accessor name keywords =>
    exact .selector (retabled.view? left) (retabled.view? right) name argc keywords accessor

/-- A method is a candidate with a score whatever table it is in. -/
theorem isCandidate {score : Nat} (candidate : s.IsCandidate wanted arguments v score) :
    s'.IsCandidate wanted arguments v score := by
  obtain ⟨m, named, isMethod, isSelector, ⟨name, argc, keywords, accessor⟩,
    signature, t, isSignature, isTuple, enough, sums⟩ := candidate
  exact ⟨m, named, retabled.view? isMethod, retabled.view? isSelector,
    ⟨retabled.same name, argc, retabled.same keywords, accessor⟩,
    signature, t, retabled.view? isSignature, retabled.view? isTuple, enough, retabled.sums sums⟩

theorem candidatesAmong (methods : List Value) :
    s'.candidatesAmong wanted arguments methods = s.candidatesAmong wanted arguments methods := by
  have same : s'.candidateScore? wanted arguments = s.candidateScore? wanted arguments := by
    funext v
    apply Option.ext
    intro score
    rw [candidateScore?_eq_some, candidateScore?_eq_some]
    exact ⟨retabled.symm.isCandidate, retabled.isCandidate⟩
  rw [Store.candidatesAmong, Store.candidatesAmong, same]

end Retabled

/-- No candidate has a lower score. -/
def IsLeastScore (candidates : List (Nat × Value)) (least : Nat) : Prop := ∀ c ∈ candidates, least ≤ c.1

/-- The candidates with a score. -/
def scored (candidates : List (Nat × Value)) (score : Nat) : List (Nat × Value) :=
  candidates.filter fun c => c.1 = score

/-- What a lookup may answer, by the candidates for the message. -/
inductive Answers (candidates : List (Nat × Value)) : Except Violation (Option Value) → Prop
  | none (empty : candidates = []) : Answers candidates (.ok none)
  | unique {least : Nat} {method : Value} (isLeast : IsLeastScore candidates least)
      (only : scored candidates least = [(least, method)]) : Answers candidates (.ok (some method))
  | ambiguous {least : Nat} (isLeast : IsLeastScore candidates least)
      (several : 2 ≤ (scored candidates least).length) : Answers candidates (.error .ambiguousLookup)

theorem answers_of_finds {search : Search} (finds : search.Finds candidates) : Answers candidates
      (if search.ambiguous then .error .ambiguousLookup else .ok (search.best.map Prod.snd)) := by
  cases finds with
  | nothing empty => exact .none empty
  | @best _ least method others ambiguous atLeast least_le others_iff =>
    cases others with
    | nil =>
      obtain rfl : ambiguous = false := by simpa using others_iff
      exact .unique least_le atLeast
    | cons other others =>
      obtain rfl : ambiguous = true := by simpa using others_iff
      refine .ambiguous least_le ?_
      rw [scored, atLeast]
      simp

theorem answers_lookup {selector : Value} {layout : Layout} {chain : List (Value × Protocol)}
    (message : s.Message selector arguments wanted layout chain) :
    Answers (s.candidates wanted arguments layout chain) (s.lookup selector arguments) := by
  obtain ⟨search, isSearch, finds⟩ := Search.run_finds message 0
  have all : Search.counted 0 (s.candidates wanted arguments layout chain) =
      s.candidates wanted arguments layout chain := by simp [Search.counted]
  rw [all] at finds
  simp only [lookup, isSearch, bind, Except.bind]
  exact answers_of_finds finds

theorem least_unique {c : Nat × Value} {least : Nat} (isLeast : IsLeastScore candidates least)
    (found : c ∈ scored candidates least) {other : Nat} (isLeast' : IsLeastScore candidates other)
    {d : Nat × Value} (found' : d ∈ scored candidates other) : least = other := by
  obtain ⟨member, isScore⟩ := List.mem_filter.mp found
  obtain ⟨member', isScore'⟩ := List.mem_filter.mp found'
  have := isLeast d member'
  have := isLeast' c member
  simp only [decide_eq_true_eq] at isScore isScore'
  omega

/-- The candidates determine the answer, whatever their order. -/
theorem Answers.eq_of_perm {candidates candidates' : List (Nat × Value)}
    {answer answer' : Except Violation (Option Value)} (answers : Answers candidates answer)
    (answers' : Answers candidates' answer') (perm : candidates.Perm candidates') :
    answer = answer' := by
  have scored_perm : ∀ score, (scored candidates score).Perm (scored candidates' score) :=
    fun score => perm.filter _
  have isLeast_perm : ∀ {score}, IsLeastScore candidates' score → IsLeastScore candidates score :=
    fun isLeast c member => isLeast c (perm.mem_iff.mp member)
  cases answers with
  | none empty =>
    subst empty
    cases perm.nil_eq
    cases answers' with
    | none => rfl
    | unique _ only => cases only
    | ambiguous _ several => cases several
  | @unique least method isLeast only =>
    have found : (least, method) ∈ scored candidates least := by simp [only]
    cases answers' with
    | none empty =>
      subst empty
      cases perm.eq_nil
      cases only
    | @unique least' method' isLeast' only' =>
      have found' : (least', method') ∈ scored candidates least' :=
        (scored_perm least').mem_iff.mpr (by simp [only'])
      cases least_unique isLeast found (isLeast_perm isLeast') found'
      rw [only] at found'
      obtain rfl : method' = method := by simpa using found'
      rfl
    | @ambiguous least' isLeast' several =>
      rw [← (scored_perm least').length_eq] at several
      obtain ⟨d, found'⟩ := List.exists_mem_of_length_pos (by omega : 0 < (scored candidates least').length)
      cases least_unique isLeast found (isLeast_perm isLeast') found'
      rw [only] at several
      cases Nat.not_succ_le_self 1 several
  | @ambiguous least isLeast several =>
    obtain ⟨c, found⟩ := List.exists_mem_of_length_pos (by omega : 0 < (scored candidates least).length)
    cases answers' with
    | none empty =>
      subst empty
      cases perm.eq_nil
      cases several
    | @unique least' method' isLeast' only' =>
      have found' : (least', method') ∈ scored candidates least' :=
        (scored_perm least').mem_iff.mpr (by simp [only'])
      cases least_unique isLeast found (isLeast_perm isLeast') found'
      rw [(scored_perm least).length_eq, only'] at several
      cases Nat.not_succ_le_self 1 several
    | ambiguous => rfl

/-- The only candidate with the least score answers a message. There is none if there are no
candidates, and the message is ambiguous if there are several. Neither the order of methods in a
table nor the table that a method is in makes a difference. -/
theorem lookup_unique_minimum {selector : Value} {layout : Layout} {chain : List (Value × Protocol)}
    (message : s.Message selector arguments wanted layout chain) :
    (s.lookup selector arguments = .ok none ↔ s.candidates wanted arguments layout chain = []) ∧
    (∀ method, s.lookup selector arguments = .ok (some method) ↔
      ∃ least, IsLeastScore (s.candidates wanted arguments layout chain) least ∧
        scored (s.candidates wanted arguments layout chain) least = [(least, method)]) ∧
    (∀ violation, s.lookup selector arguments = .error violation ↔
      violation = .ambiguousLookup ∧ violation.message = "ambiguous method lookup" ∧
        ∃ least, IsLeastScore (s.candidates wanted arguments layout chain) least ∧
          2 ≤ (scored (s.candidates wanted arguments layout chain) least).length) ∧
    ∀ s' layout' chain', s.Retabled s' → s'.Message selector arguments wanted layout' chain' →
      (s.methodsOf layout chain).Perm (s'.methodsOf layout' chain') →
      s'.lookup selector arguments = s.lookup selector arguments := by
  have answers := answers_lookup message
  have determined : ∀ {answer}, Answers (s.candidates wanted arguments layout chain) answer →
      s.lookup selector arguments = answer := fun answers' => answers.eq_of_perm answers' (.refl _)
  refine ⟨⟨fun isNone => ?_, fun empty => determined (.none empty)⟩,
    fun method => ⟨fun isMethod => ?_, fun ⟨least, isLeast, only⟩ => determined (.unique isLeast only)⟩,
    fun violation => ⟨fun isError => ?_, ?_⟩, fun s' layout' chain' retabled message' perm => ?_⟩
  · rw [isNone] at answers
    cases answers with
    | none empty => exact empty
  · rw [isMethod] at answers
    cases answers with
    | unique isLeast only => exact ⟨_, isLeast, only⟩
  · rw [isError] at answers
    cases answers with
    | ambiguous isLeast several => exact ⟨rfl, rfl, _, isLeast, several⟩
  · rintro ⟨rfl, -, least, isLeast, several⟩
    exact determined (.ambiguous isLeast several)
  · refine (answers.eq_of_perm (answers_lookup message') ?_).symm
    rw [candidates, candidates, retabled.candidatesAmong]
    exact perm.filterMap _

/-- The message of a crossing. -/
abbrev crossed : Selector := { name := .object ⟨3⟩, argc := 1, keywords := .object ⟨4⟩, accessor := .int 0 }

/-- The layout of integers there, with methods of its own. -/
abbrev crossLayout (own : Ref) : Layout :=
  { kind := .smallInteger, fieldCount := 0, protocol := .object ⟨1⟩, methods := .object own }

/-- A store in which integers answer to a near protocol at position 1 and to a far one at position
2. The methods at positions 8 and 9 answer the same message and take the near and the far protocol.
Of the tables at positions 12 to 14, the layout and the protocols refer to the given ones. -/
def crossing (own near far : Ref) : Store :=
  let s := Store.ofBodies [
    .layout (crossLayout own),
    .protocol { name := .object ⟨3⟩, methods := .object near, parent := .object ⟨2⟩ },
    .protocol { name := .object ⟨3⟩, methods := .object far, parent := .int 0 },
    .string ⟨"cross"⟩,
    .tuple ⟨#[]⟩,
    .selector crossed,
    .tuple ⟨#[.object ⟨1⟩]⟩,
    .tuple ⟨#[.object ⟨2⟩]⟩,
    .method { selector := .object ⟨5⟩, signature := .object ⟨10⟩, lambda := .int 0 },
    .method { selector := .object ⟨5⟩, signature := .object ⟨11⟩, lambda := .int 0 },
    .signature ⟨.object ⟨6⟩⟩,
    .signature ⟨.object ⟨7⟩⟩,
    .tuple ⟨#[.object ⟨9⟩]⟩,
    .tuple ⟨#[.object ⟨8⟩, .object ⟨9⟩]⟩,
    .tuple ⟨#[]⟩] 0 0
  { s with roots := { s.roots with layouts := s.roots.layouts.set Kind.smallInteger.tag ⟨0⟩ } }

/-- The protocols that integers answer to there. -/
def crossingChain (near far : Ref) : List (Value × Protocol) :=
  [(.object ⟨1⟩, { name := .object ⟨3⟩, methods := .object near, parent := .object ⟨2⟩ }),
    (.object ⟨2⟩, { name := .object ⟨3⟩, methods := .object far, parent := .int 0 })]

theorem crossing_message {own near far : Ref}
    (tables : ∀ r ∈ [own, near, far], r ∈ [Ref.mk 12, ⟨13⟩, ⟨14⟩]) :
    (crossing own near far).Message (.object ⟨5⟩) #[.int 3] crossed (crossLayout own)
      (crossingChain near far) := by
  have climbs : (crossing own near far).heap.Climbs (.object ⟨1⟩) (crossingChain near far) :=
    .up rfl (.up rfl (.top rfl))
  have dispatched : (crossing own near far).DispatchedBy (.int 3) (crossLayout own) :=
    .integer (.itself rfl) rfl
  have named : (crossing own near far).heap.WellNamed crossed :=
    ⟨rfl, rfl, .tuple rfl (by simp)⟩
  have first : ∃ m named signature t, (crossing own near far).HoldsMethod (.object ⟨8⟩) m named signature t :=
    ⟨_, _, _, _, ⟨rfl, rfl, named, rfl, rfl⟩⟩
  have second : ∃ m named signature t,
      (crossing own near far).HoldsMethod (.object ⟨9⟩) m named signature t :=
    ⟨_, _, _, _, ⟨rfl, rfl, named, rfl, rfl⟩⟩
  have holds : ∀ r ∈ [Ref.mk 12, ⟨13⟩, ⟨14⟩], (crossing own near far).HoldsMethods (.object r) := by
    intro r member
    simp only [List.mem_cons, List.not_mem_nil, or_false] at member
    obtain rfl | rfl | rfl := member
    · exact ⟨rfl, List.forall_mem_singleton.mpr second⟩
    · exact ⟨rfl, List.forall_mem_cons.mpr ⟨first, List.forall_mem_singleton.mpr second⟩⟩
    · exact ⟨rfl, List.forall_mem_nil _⟩
  refine ⟨⟨.int 3, rfl, dispatched⟩, climbs, ?_, rfl, named, ?_⟩
  · intro argument member
    obtain rfl : argument = .int 3 := by simpa using member
    exact ⟨_, _, dispatched, climbs⟩
  · simp only [List.forall_mem_cons] at tables
    obtain ⟨isOwn, isNear, isFar, -⟩ := tables
    exact List.forall_mem_cons.mpr ⟨holds _ isOwn, List.forall_mem_cons.mpr
      ⟨holds _ isNear, List.forall_mem_singleton.mpr (holds _ isFar)⟩⟩

/-- The far method is found twice and the near one once, which answers. It still does when the
tables change places. -/
theorem lookup_unique_minimum_crossing :
    (∃ least, IsLeastScore ((crossing ⟨12⟩ ⟨13⟩ ⟨14⟩).candidates crossed #[.int 3]
      (crossLayout ⟨12⟩) (crossingChain ⟨13⟩ ⟨14⟩)) least ∧
      scored ((crossing ⟨12⟩ ⟨13⟩ ⟨14⟩).candidates crossed #[.int 3] (crossLayout ⟨12⟩)
      (crossingChain ⟨13⟩ ⟨14⟩)) least = [(least, .object ⟨8⟩)]) ∧ (crossing ⟨14⟩ ⟨12⟩ ⟨13⟩).lookup
      (.object ⟨5⟩) #[.int 3] = (crossing ⟨12⟩ ⟨13⟩ ⟨14⟩).lookup (.object ⟨5⟩) #[.int 3] := by
  have message := @crossing_message ⟨12⟩ ⟨13⟩ ⟨14⟩ (by decide)
  have message' := @crossing_message ⟨14⟩ ⟨12⟩ ⟨13⟩ (by decide)
  obtain ⟨-, unique, -, retabled⟩ := lookup_unique_minimum message
  refine ⟨(unique _).mp (by decide), retabled _ _ _ ⟨rfl, ?_⟩ message' (by decide)⟩
  rintro ⟨position⟩
  match position with
  | 0 | 1 | 2 => rfl
  | position + 3 => rfl

end Store

end ObjectMachine
