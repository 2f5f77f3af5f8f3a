/-
# ObjectMachine.Proofs.Activation -- frames that run code

`Proofs.ParkedStack` says where the links of a stack lead. This module adds what runs in the frames:
`Heap.Runs h v pc n m` says that the lambda `v` has disciplined code with declared height `m`, some
path of which is at `pc` with `n` operands, and `Heap.Chain` that each frame of a stack runs its
lambda so and that the declared heights stay below the limit of the stack.

* `Heap.Chain.carry` -- a chain whose words are rewritten is a chain of another heap, as long as the
  lambdas in it run there.
* `Heap.Chain.above_le` -- operands never cross the limit, so there is room to park.
* `Heap.ParkedAs.parkedAt` -- a parked chain can be moved.
-/
import Mathlib
import ObjectMachine.Proofs.Heights
import ObjectMachine.Proofs.Image

namespace ObjectMachine

namespace Heap

/-- The number of fields of the layout that a value leads to. -/
def fieldCount? (h : Heap) (v : Value) : Option Nat := (h.view? Layout v).map Layout.fieldCount

/-- The numbers of fields of the layouts in a pool of constants. -/
def fieldCountsIn (h : Heap) (pool : Array Value) (index : UInt16) : Option Nat :=
  pool[index.toNat]?.bind h.fieldCount?

/-- The numbers of fields of the layouts among the constants of a lambda. -/
def fieldCounts (h : Heap) (constants : Value) (index : UInt16) : Option Nat :=
  (h.view? Tuple constants).bind fun t => h.fieldCountsIn t.elements index

/-- The lambda `v` has disciplined code with declared height `maxHeight`, and a path of the code is
at `pc` with `height` operands. -/
structure Runs (h : Heap) (v : Value) (l : Lambda) (c : Code) (pc height : Nat) : Prop where
  lambda : h.view? Lambda v = some l
  code : h.view? Code l.code = some c
  disciplined : Disciplined c.units (h.fieldCounts l.constants) l.maxHeight
  path : HeightAt c.units (h.fieldCounts l.constants) pc height

end Heap

/-- The words of the frame at `frame`, whose operands end at `above`. -/
structure Stack.FrameAt (words : Array Slot) (link : Link) (frame above : Nat) (lambda : Value)
    (counter : Int) : Prop where
  counter : words[frame]? = some (.value (.int counter))
  linked : words[frame + 1]? = some (.link link)
  lambda : words[frame + 2]? = some (.value lambda)
  operands : HoldsValues words (frame + 3) above
  room : frame + 3 ≤ above

namespace Stack.FrameAt

variable {words words' : Array Slot} {link : Link} {frame above : Nat} {lambda : Value} {counter : Int}

variable (frameAt : FrameAt words link frame above lambda counter)
include frameAt

theorem congr (same : ∀ i, frame ≤ i → i < above → words'[i]? = words[i]?) :
    FrameAt words' link frame above lambda counter := by
  have room := frameAt.room
  refine ⟨(same _ (by omega) (by omega)).trans frameAt.counter,
    (same _ (by omega) (by omega)).trans frameAt.linked,
    (same _ (by omega) (by omega)).trans frameAt.lambda, ?_, room⟩
  intro i low high
  rw [same i (by omega) high]
  exact frameAt.operands i low high

theorem map {f : Link → Link} {g : Value → Value} (counters : ∀ n, g (.int n) = .int n)
    (mapped : ∀ i, frame ≤ i → i < above →
      words'[i]? = (words[i]?).map fun slot => (slot.mapLink f).mapValue g) :
    FrameAt words' (f link) frame above (g lambda) counter := by
  have room := frameAt.room
  refine ⟨?_, ?_, ?_, ?_, room⟩
  · simp [mapped frame (by omega) (by omega), frameAt.counter, counters]
  · simp [mapped (frame + 1) (by omega) (by omega), frameAt.linked]
  · simp [mapped (frame + 2) (by omega) (by omega), frameAt.lambda]
  · intro i low high
    obtain ⟨v, found⟩ := frameAt.operands i low high
    exact ⟨g v, by simp [mapped i (by omega) high, found]⟩

theorem write {offset : Nat} (operand : frame + 3 ≤ offset) (v : Value) :
    FrameAt (words.setIfInBounds offset (.value v)) link frame above lambda counter := by
  have others : ∀ i, i < frame + 3 → (words.setIfInBounds offset (.value v))[i]? = words[i]? := by
    intro i low
    rw [Array.getElem?_setIfInBounds_ne (by omega)]
  refine ⟨(others _ (by omega)).trans frameAt.counter, (others _ (by omega)).trans frameAt.linked,
    (others _ (by omega)).trans frameAt.lambda, ?_, frameAt.room⟩
  intro i low high
  rw [Array.getElem?_setIfInBounds]
  obtain ⟨old, found⟩ := frameAt.operands i low high
  have inside := (Array.getElem?_eq_some_iff.mp found).1
  by_cases here : offset = i
  · subst here
    exact ⟨v, by simp [inside]⟩
  · exact ⟨old, by simp [here, found]⟩

theorem push (v : Value) (fits : above < words.size) :
    FrameAt (words.setIfInBounds above (.value v)) link frame (above + 1) lambda counter := by
  have written := frameAt.write frameAt.room v
  refine ⟨written.counter, written.linked, written.lambda, ?_, by have := frameAt.room; omega⟩
  intro i low high
  obtain rfl | low' : i = above ∨ i < above := by omega
  · exact ⟨v, Array.getElem?_setIfInBounds_self_of_lt fits⟩
  · exact written.operands i low low'

theorem drop {lower : Nat} (room : frame + 3 ≤ lower) (le : lower ≤ above) :
    FrameAt words link frame lower lambda counter :=
  ⟨frameAt.counter, frameAt.linked, frameAt.lambda, fun i low high => frameAt.operands i low (by omega), room⟩

theorem values : HoldsValues words (frame + 2) above := by
  intro i low high
  obtain rfl | low : i = frame + 2 ∨ frame + 3 ≤ i := by omega
  · exact ⟨lambda, frameAt.lambda⟩
  · exact frameAt.operands i low high

theorem above_le_size : above ≤ words.size := by
  have room := frameAt.room
  obtain ⟨v, found⟩ := frameAt.values (above - 1) (by omega) (by omega)
  have := (Array.getElem?_eq_some_iff.mp found).1
  omega

end Stack.FrameAt

namespace Heap

open Stack (FrameAt)

/-- The frames from the one at `frame`, which is at `pc` and whose operands end at `above`, down to
the bottom frame, which holds the entry lambda. A frame that was entered with a keymap counts its
operands from above it. Below every frame lies an operand for its answer. -/
inductive Chain (h : Heap) (words : Array Slot) (link : Nat → Link) (limit : Nat) :
    Nat → Nat → Nat → Prop
  | bottom {above pc : Nat} {v : Value} {counter : Int}
      (frameAt : FrameAt words .bottom 0 above v counter) (isLambda : h.is Lambda v = true)
      (entry : 3 < above) (fits : above ≤ limit) : Chain h words link limit 0 above pc
  | frame {frame below above pc base height : Nat} {v : Value} {counter : Int} {l : Lambda} {c : Code}
      (frameAt : FrameAt words (link below) frame above v counter)
      (base_ge : frame + 3 ≤ base) (base_le : base ≤ frame + 4) (above_eq : above = base + height)
      (runs : h.Runs v l c pc height) (fits : base + l.maxHeight ≤ limit)
      (answer : below + 3 < frame) (rest : Chain h words link limit below frame (Size.ofInt counter)) :
      Chain h words link limit frame above pc

namespace Chain

variable {h h' : Heap} {words words' : Array Slot} {link link' : Nat → Link}
  {limit limit' frame above pc : Nat}

variable (chain : h.Chain words link limit frame above pc)
include chain

theorem frameAt : ∃ l v counter, FrameAt words l frame above v counter ∧ h.is Lambda v = true := by
  cases chain with
  | bottom frameAt isLambda _ _ => exact ⟨_, _, _, frameAt, isLambda⟩
  | frame frameAt _ _ _ runs _ _ _ => exact ⟨_, _, _, frameAt, by simp [is, runs.lambda]⟩

theorem room : frame + 3 ≤ above := by
  obtain ⟨_, _, _, frameAt, -⟩ := chain.frameAt
  exact frameAt.room

theorem above_le : above ≤ limit := by
  cases chain with
  | bottom _ _ _ fits => exact fits
  | frame _ _ _ above_eq runs fits _ _ =>
    have := runs.disciplined.height_le runs.path
    omega

theorem carry {f : Link → Link}
    {g : Value → Value} (links : ∀ offset, f (link offset) = link' offset)
    (bottom : f .bottom = .bottom) (counters : ∀ n, g (.int n) = .int n)
    (mapped : ∀ i, i < above → words'[i]? = (words[i]?).map fun slot => (slot.mapLink f).mapValue g)
    (lambdas : ∀ i v, i < above → words[i]? = some (.value v) →
      h.is Lambda v = true → h'.is Lambda (g v) = true)
    (runs : ∀ i v l c pc height, i < above → words[i]? = some (.value v) → h.Runs v l c pc height →
      ∃ l', h'.Runs (g v) l' c pc height ∧ l'.maxHeight = l.maxHeight) (higher : limit ≤ limit') :
    h'.Chain words' link' limit' frame above pc := by
  induction chain with
  | bottom frameAt isLambda entry fits =>
    have moved := frameAt.map (f := f) counters fun i _ high => mapped i high
    rw [bottom] at moved
    exact .bottom moved (lambdas _ _ (by omega) frameAt.lambda isLambda) entry (by omega)
  | frame frameAt base_ge base_le above_eq here fits answer rest ih =>
    have room := frameAt.room
    have moved := frameAt.map (f := f) counters fun i _ high => mapped i high
    rw [links] at moved
    obtain ⟨l', here', declared⟩ := runs _ _ _ _ _ _ (by omega) frameAt.lambda here
    refine .frame moved base_ge base_le above_eq here' (by omega) answer
      (ih (fun i high => mapped i (by omega)) (fun i v high => lambdas i v (by omega))
        (fun i v l c pc height high => runs i v l c pc height (by omega)))

/-- A chain is read only below its end. -/
theorem congr (same : ∀ i, i < above → words'[i]? = words[i]?) :
    h.Chain words' link limit frame above pc := by
  refine chain.carry (f := id) (g := id) (fun _ => rfl) rfl (fun _ => rfl) ?_
    (fun _ _ _ _ isLambda => isLambda) (fun _ v l c pc height _ _ runs => ⟨l, runs, rfl⟩) le_rfl
  intro i high
  rw [same i high]
  cases words[i]? with
  | none => rfl
  | some slot => cases slot <;> rfl

theorem frames : Stack.Frames words link frame above := by
  induction chain with
  | bottom frameAt _ entry _ =>
    exact .bottom frameAt.counter frameAt.linked frameAt.values (by omega)
  | frame frameAt _ _ _ _ _ answer _ ih =>
    exact .frame frameAt.counter frameAt.linked frameAt.values frameAt.room (by omega) ih

end Chain

/-- The parked stack at `home`: the frame to go on with has at least `least` operands. -/
structure ParkedAs (h : Heap) (home : Ref) (s : Stack) (least top frame : Nat) (v : Value)
    (counter : Int) : Prop where
  status : s.status = .parked
  mode : s.mode = .linked
  top_eq : s.top = .address home top
  parking : FrameAt s.words (.address home frame) top (top + 3) v counter
  isLambda : h.is Lambda v = true
  operands : frame + 3 + least ≤ top
  chain : h.Chain s.words (.address home) (s.height - Frame.reserved * Frame.size) frame top
    (Size.ofInt counter)

@[inherit_doc ParkedAs]
def Parked (h : Heap) (home : Ref) (least : Nat) (s : Stack) : Prop :=
  ∃ top frame v counter, h.ParkedAs home s least top frame v counter

/-- The stack at `home` has nothing to run, or is parked with an operand for an answer. -/
def AtRest (h : Heap) (home : Ref) (s : Stack) : Prop := s.status = .empty ∨ h.Parked home 1 s

section Parked

variable {h : Heap} {home : Ref} {s : Stack} {least top frame : Nat} {v : Value} {counter : Int}

theorem ParkedAs.parkedAt (parked : h.ParkedAs home s least top frame v counter) :
    s.ParkedAt home top where
  status := parked.status
  mode := parked.mode
  top_eq := parked.top_eq
  frames := .frame parked.parking.counter parked.parking.linked parked.parking.values
    parked.parking.room parked.chain.room parked.chain.frames

theorem AtRest.settled (atRest : h.AtRest home s) : (Body.stack s).Settled home := by
  rintro _ ⟨⟩
  obtain empty | ⟨top, frame, v, counter, parked⟩ := atRest
  · exact .inl empty
  · exact .inr ⟨top, parked.parkedAt⟩

end Parked

end Heap

end ObjectMachine
