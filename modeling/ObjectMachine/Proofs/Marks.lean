/-
# ObjectMachine.Proofs.Marks -- the marks of active frames

A stack links its markers from the innermost outwards. `Picture.Lists` says that this chain is a
given list of marks: those that frames which are still active have made and not undone.
`Exec.Follows` follows one task through a call, and through relocations, and keeps that list.

* `Picture.Lists.step` -- one step, as long as the words of the marks are left alone.
* `Exec.Follows.kept` -- any number of steps. What lies below a frame stays as long as the frame is
  active, and the chain is that of the marks.
* `Exec.Follows.outer` -- the marks of frames further down stay in place.
-/
import Mathlib
import ObjectMachine.Proofs.Strides

namespace ObjectMachine

/-- A marker that the frame at `frame` has put at `offset`. -/
structure Mark where
  frame : Nat
  offset : Nat
  handlers : Value
  deriving DecidableEq

/-- The mark when objects have gone where `place` says. -/
def Mark.move (place : Ref → Ref) (k : Mark) : Mark := { k with handlers := k.handlers.move place }

@[simp] theorem Mark.move_id (k : Mark) : k.move id = k := by
  rw [move, Value.move_id]

theorem Mark.move_move (p q : Ref → Ref) (k : Mark) : (k.move p).move q = k.move (q ∘ p) := by
  rw [move, move, move, Value.move_move]

namespace Picture

variable {p q : Picture} {i : Option Instruction} {place : Ref → Ref} {f g b : Nat} {marks : List Mark}
  {top bottom : Option Nat} {k : Mark} {words : List Slot}

/-- The frames of a stack, from the top frame on down. -/
inductive Active (p : Picture) : Nat → Prop
  | here : Active p p.fp
  | under {g b : Nat} (above : Active p g) (linked : p.words[g + 1]? = some (.link (.offset b)))
      (lower : b < g) : Active p b

theorem Active.le (active : p.Active g) : g ≤ p.fp := by
  induction active with
  | here => exact le_rfl
  | under _ _ lower ih => exact lower.le.trans ih

/-- Frames stay as long as the words of their headers do. -/
theorem Active.congr (active : p.Active g) (fp : q.fp = p.fp)
    (same : ∀ j < p.fp + 3, q.words[j]? = p.words[j]?) : q.Active g := by
  induction active with
  | here => exact fp ▸ .here
  | under above linked lower ih =>
    have := above.le
    exact .under ih ((same _ (by omega)).trans linked) lower

/-- The frames below the top one. -/
theorem Active.cases (active : p.Active g) : g = p.fp ∨ g < p.fp := active.le.eq_or_lt

theorem active_entered (fp : q.fp = p.words.length)
    (below : ∀ j < p.words.length, q.words[j]? = p.words[j]?)
    (linked : q.words[p.words.length + 1]? = some (.link (.offset p.fp)))
    (higher : p.fp + 3 < p.words.length) : q.Active g ↔ g = q.fp ∨ p.Active g := by
  constructor
  · intro active
    induction active with
    | here => exact .inl rfl
    | @under g b above linked' lower ih =>
      obtain rfl | ih := ih
      · rw [fp, linked] at linked'
        cases linked'
        exact .inr .here
      · have := ih.le
        exact .inr (.under ih ((below _ (by omega)).symm.trans linked') lower)
  · rintro (rfl | active)
    · exact .here
    · induction active with
      | here => exact .under .here (fp ▸ linked) (by omega)
      | @under g b above linked' lower ih =>
        have := above.le
        exact .under ih ((below _ (by omega)).trans linked') lower

theorem active_left (linked : p.words[p.fp + 1]? = some (.link (.offset b))) (lower : b + 3 < p.fp)
    (fp : q.fp = b) (same : ∀ j < p.fp - 1, q.words[j]? = p.words[j]?) :
    q.Active g ↔ p.Active g ∧ g < p.fp := by
  constructor
  · intro active
    induction active with
    | here =>
      subst fp
      exact ⟨.under .here linked (by omega), by omega⟩
    | under above linked' lower' ih =>
      have := above.le
      exact ⟨.under ih.1 ((same _ (by omega)).symm.trans linked') lower', by omega⟩
  · rintro ⟨active, inner⟩
    induction active with
    | here => omega
    | @under g c above linked' lower' ih =>
      obtain rfl | inner' := above.cases
      · cases linked.symm.trans linked'
        exact fp ▸ .here
      · have active := ih inner'
        have := active.le
        exact .under active ((same _ (by omega)).trans linked') lower'

/-- The markers from `top` on are those of the marks, and behind them comes `bottom`. -/
def Chained (words : List Slot) : Option Nat → List Mark → Option Nat → Prop
  | top, [], bottom => top = bottom
  | top, k :: marks, bottom => top = some k.offset ∧ words[k.offset + 1]? = some (.value k.handlers) ∧
      ∃ link next, words[k.offset]? = some (.value (.int link)) ∧ Size.ofInt link = next.elim 0 (· + 1) ∧
        Chained words next marks bottom

theorem Chained.congr {words words' : List Slot} (chained : Chained words top marks bottom)
    (same : ∀ k ∈ marks, words'[k.offset]? = words[k.offset]? ∧
      words'[k.offset + 1]? = words[k.offset + 1]?) : Chained words' top marks bottom := by
  induction marks generalizing top with
  | nil => exact chained
  | cons k marks ih =>
    obtain ⟨isTop, handlers, link, next, linked, isNext, rest⟩ := chained
    obtain ⟨first, second⟩ := same k List.mem_cons_self
    exact ⟨isTop, second.trans handlers, link, next, first.trans linked, isNext,
      ih rest fun l member => same l (List.mem_cons_of_mem k member)⟩

theorem Chained.move (chained : Chained words top marks bottom) (place : Ref → Ref) :
    Chained (words.map (Slot.carry place)) top (marks.map (Mark.move place)) bottom := by
  induction marks generalizing top with
  | nil => exact chained
  | cons k marks ih =>
    obtain ⟨isTop, handlers, link, next, linked, isNext, rest⟩ := chained
    refine ⟨isTop, ?_, link, next, ?_, isNext, ih rest⟩
    · rw [List.getElem?_map]
      exact congrArg (Option.map (Slot.carry place)) handlers
    · rw [List.getElem?_map]
      exact congrArg (Option.map (Slot.carry place)) linked

/-- The chain of markers is that of the marks, each of which a frame has made on its operands. -/
structure Lists (p : Picture) (marks : List Mark) (bottom : Option Nat) : Prop where
  chained : Chained p.words p.marker marks bottom
  active : ∀ k ∈ marks, p.Active k.frame
  inside : ∀ k ∈ marks, k.frame + 3 ≤ k.offset ∧ k.offset + 2 ≤ p.words.length
  apart : ∀ k ∈ marks, ∀ g, p.Active g → k.frame < g → k.offset + 2 ≤ g
  descending : marks.Pairwise fun k l => l.offset < k.offset

/-- The words of the marks are left alone. -/
def Keeps (marks : List Mark) (p q : Picture) : Prop :=
  ∀ k ∈ marks, q.words[k.offset]? = p.words[k.offset]? ∧ q.words[k.offset + 1]? = p.words[k.offset + 1]?

/-- Marks whose words are left alone stay marks, if their frames stay. -/
theorem Lists.keeps (lists : p.Lists marks bottom) (keeps : Keeps marks p q)
    (marker : q.marker = p.marker) (active : ∀ k ∈ marks, p.Active k.frame → q.Active k.frame)
    (apart : ∀ k ∈ marks, ∀ g, q.Active g → k.frame < g → p.Active g ∨ k.offset + 2 ≤ g) :
    q.Lists marks bottom where
  chained := marker ▸ lists.chained.congr keeps
  active k member := active k member (lists.active k member)
  inside k member := by
    refine ⟨(lists.inside k member).1, ?_⟩
    have := (lists.inside k member).2
    have kept := (keeps k member).2
    rw [@List.getElem?_eq_getElem _ p.words _ (by omega)] at kept
    exact (List.getElem?_eq_some_iff.mp kept).1
  apart k member g isActive above :=
    (apart k member g isActive above).elim (fun was => lists.apart k member g was above) id
  descending := lists.descending

theorem Lists.head (lists : p.Lists (k :: marks) bottom) : p.marker = some k.offset := lists.chained.1

/-- The marker below a marker is read from the word of the marker. -/
theorem nextMarker_eq {s : Stack} {marker : Nat} {link : Int}
    {next : Option Nat} (same : ∀ j < words.length, (s.words[j]?).map Slot.loosen = words[j]?)
    (linked : words[marker]? = some (.value (.int link)))
    (isNext : Size.ofInt link = next.elim 0 (· + 1)) : Exec.nextMarker s marker = .ok next := by
  have inside := (List.getElem?_eq_some_iff.mp linked).1
  obtain ⟨slot, found, loose⟩ := Option.map_eq_some_iff.mp ((same _ inside).trans linked)
  cases Slot.eq_value_of_loosen loose
  simp only [Exec.nextMarker, Exec.countAt_of_int found, isNext, bind, Except.bind]
  cases next <;> rfl

/-- The markers below a frame are those of the marks that lower frames have made. -/
theorem Chained.below {s : Stack} {fuel : Nat}
    {marker : Option Nat} (chained : Chained words top marks bottom)
    (same : ∀ j < words.length, (s.words[j]?).map Slot.loosen = words[j]?)
    (own : ∀ k ∈ marks, k.frame = f → f ≤ k.offset)
    (other : ∀ k ∈ marks, k.frame ≠ f → k.offset < f)
    (descending : marks.Pairwise fun k l => l.offset < k.offset)
    (low : ∀ b ∈ bottom, b < f) (isMarker : Exec.markerBelow s f fuel top = .ok marker) :
    Chained words marker (marks.filter (·.frame ≠ f)) bottom := by
  induction fuel generalizing top marks with
  | zero => cases isMarker
  | succ fuel ih =>
    cases marks with
    | nil =>
      cases chained
      cases bottom with
      | none =>
        cases isMarker
        rfl
      | some b =>
        rw [Exec.markerBelow, if_pos (low b rfl)] at isMarker
        cases isMarker
        rfl
    | cons k marks =>
      obtain ⟨rfl, handlers, link, next, linked, isNext, rest⟩ := id chained
      rw [List.pairwise_cons] at descending
      rw [Exec.markerBelow] at isMarker
      by_cases isOwn : k.frame = f
      · have high := own k List.mem_cons_self isOwn
        rw [if_neg (by omega), nextMarker_eq same linked isNext] at isMarker
        rw [List.filter_cons_of_neg (by simpa using isOwn)]
        exact ih rest (fun l member => own l (List.mem_cons_of_mem k member))
          (fun l member => other l (List.mem_cons_of_mem k member)) descending.2 isMarker
      · -- the marks further down are lower still, and none of them is the frame's own
        have lower := other k List.mem_cons_self isOwn
        rw [if_pos lower] at isMarker
        cases isMarker
        rw [List.filter_eq_self.mpr]
        · exact chained
        · intro l member
          obtain rfl | member := List.mem_cons.mp member
          · simpa using isOwn
          · have := descending.1 l member
            simp only [ne_eq, decide_not, Bool.not_eq_eq_eq_not, Bool.not_true, decide_eq_false_iff_not]
            intro isOwn'
            have := own l (List.mem_cons_of_mem k member) isOwn'
            omega

/-- Looking for the marker below a frame comes to an end. -/
theorem Chained.exists_below {s : Stack} {fuel : Nat} (chained : Chained words top marks bottom)
    (same : ∀ j < words.length, (s.words[j]?).map Slot.loosen = words[j]?)
    (low : ∀ b ∈ bottom, b < f) (enough : marks.length < fuel) :
    ∃ marker, Exec.markerBelow s f fuel top = .ok marker := by
  induction marks generalizing top fuel with
  | nil =>
    obtain ⟨fuel, rfl⟩ := Nat.exists_eq_succ_of_ne_zero (Nat.ne_of_gt enough)
    cases chained
    cases bottom with
    | none => exact ⟨none, rfl⟩
    | some b => exact ⟨some b, if_pos (low b rfl)⟩
  | cons k marks ih =>
    obtain ⟨fuel, rfl⟩ := Nat.exists_eq_succ_of_ne_zero (Nat.ne_of_gt (Nat.zero_lt_of_lt enough))
    obtain ⟨rfl, handlers, link, next, linked, isNext, rest⟩ := chained
    rw [Exec.markerBelow]
    split
    · exact ⟨_, rfl⟩
    · rw [nextMarker_eq same linked isNext]
      exact ih rest (Nat.lt_of_succ_lt_succ enough)

/-- There are no more marks than words. -/
theorem Lists.length_le (lists : p.Lists marks bottom) : marks.length ≤ p.words.length := by
  have distinct : (marks.map Mark.offset).Nodup :=
    List.pairwise_map.mpr (lists.descending.imp fun lower => lower.ne')
  have within : marks.map Mark.offset ⊆ List.range p.words.length := by
    intro offset member
    obtain ⟨k, isMark, rfl⟩ := List.mem_map.mp member
    have := (lists.inside k isMark).2
    exact List.mem_range.mpr (by omega)
  simpa using (List.subperm_of_subset distinct within).length_le

/-- The marks that an instruction of the frame at `frame` leaves. -/
def left (i : Option Instruction) (frame : Nat) (marks : List Mark) : List Mark :=
  match i with
  | some .unmark => marks.tail
  | some .ret => marks.filter (·.frame ≠ frame)
  | _ => marks

theorem left_of_plain (plain : Plain i) (frame : Nat) (marks : List Mark) :
    left i frame marks = marks := by
  unfold left
  split
  · exact absurd rfl plain.2.1
  · exact absurd rfl plain.2.2
  · rfl

theorem Lists.sublist {others : List Mark} (lists : p.Lists marks bottom) (sub : others.Sublist marks)
    (chained : Chained p.words top others bottom) : Lists { p with marker := top } others bottom where
  chained := chained
  active k member := by
    have active := lists.active k (sub.subset member)
    exact active.congr rfl fun _ _ => rfl
  inside k member := lists.inside k (sub.subset member)
  apart k member g active := lists.apart k (sub.subset member) g (active.congr rfl fun _ _ => rfl)
  descending := lists.descending.sublist sub

/-- The chain after a step is that of the marks which are left, if their words are left alone. -/
theorem Lists.step (lists : p.Lists marks bottom) (step : Step i p q)
    (noMark : ∀ index, i ≠ some (.mark index)) (keeps : Keeps (left i p.fp marks) p q)
    (low : ∀ b ∈ bottom, b < p.fp) : q.Lists (left i p.fp marks) bottom := by
  cases step with
  | stays plain fp below room marker =>
    rw [left_of_plain plain] at keeps ⊢
    exact lists.keeps keeps marker (fun _ _ active => active.congr fp below) fun _ _ g active _ =>
      .inl (active.congr fp.symm fun j small => (below j (fp ▸ small)).symm)
  | enters plain fp below linked higher room marker =>
    rw [left_of_plain plain] at keeps ⊢
    have frames := @active_entered p q
    refine lists.keeps keeps marker (fun _ _ active => (frames fp below linked higher).mpr (.inr active))
      fun k member g active _ => ?_
    obtain rfl | active := (frames fp below linked higher).mp active
    · exact .inr (fp ▸ (lists.inside k member).2)
    · exact .inl active
  | leaves counted linked lower fp pc words same marker _ =>
    have sub : (marks.filter (·.frame ≠ p.fp)).Sublist marks := List.filter_sublist
    have inner : ∀ j < p.fp - 1, q.words[j]? = p.words[j]? := by
      intro j small
      rw [words, List.getElem?_set_ne (by omega), List.getElem?_take_of_lt (by omega)]
    have frames := @active_left p q
    have chained := lists.chained.below same (fun k member isOwn => ?_) (fun k member isOther => ?_)
      lists.descending low marker
    · refine (lists.sublist sub chained).keeps keeps rfl (fun k member active => ?_)
        fun k member g active _ => .inl ?_
      · refine (frames linked lower fp inner).mpr ⟨active.congr rfl fun _ _ => rfl, ?_⟩
        have isOther := List.of_mem_filter member
        simp only [ne_eq, decide_not, Bool.not_eq_eq_eq_not, Bool.not_true, decide_eq_false_iff_not] at isOther
        exact lt_of_le_of_ne active.le isOther
      · exact ((frames linked lower fp inner).mp active).1.congr rfl fun _ _ => rfl
    · have := (lists.inside k member).1
      omega
    · have := lists.apart k member p.fp .here (lt_of_le_of_ne (lists.active k member).le isOther)
      omega
  | marks => exact absurd rfl (noMark _)
  | unmarks fp inner room words same marker =>
    have below : ∀ j < p.fp + 3, q.words[j]? = p.words[j]? := fun j small => by
      rw [words, List.getElem?_take_of_lt (by omega)]
    cases marks with
    | nil =>
      have := low _ (lists.chained.symm.trans inner)
      omega
    | cons k marks =>
      obtain ⟨isTop, handlers, link, next, linked, isNext, rest⟩ := lists.chained
      have isOffset : k.offset = p.words.length - 2 := Option.some.inj (isTop.symm.trans inner)
      rw [← isOffset] at marker
      cases (nextMarker_eq same linked isNext).symm.trans marker
      exact (lists.sublist (List.sublist_cons_self k marks) rest).keeps keeps rfl
        (fun _ _ active => active.congr fp below) fun _ _ g active _ =>
          .inl (active.congr fp.symm fun j small => (below j (fp ▸ small)).symm)

theorem left_subset (i : Option Instruction) (frame : Nat) (marks : List Mark) :
    left i frame marks ⊆ marks := by
  unfold left
  split
  · exact List.tail_subset marks
  · exact List.filter_subset_self marks
  · exact List.Subset.refl marks

/-- Frames above a given one do not touch the marks of frames below it. -/
theorem Lists.left_append {made outer : List Mark} (lists : p.Lists (made ++ outer) bottom)
    (step : Step i p q) (above : f ≤ p.fp) (lower : ∀ k ∈ outer, k.frame < f)
    (low : ∀ b ∈ bottom, b < f) : left i p.fp (made ++ outer) = left i p.fp made ++ outer := by
  cases step with
  | stays plain => simp only [left_of_plain plain]
  | enters plain => simp only [left_of_plain plain]
  | marks => rfl
  | leaves =>
    rw [left, left, List.filter_append, List.filter_eq_self (l := outer) |>.mpr]
    intro k member
    have := lower k member
    simp only [ne_eq, decide_not, Bool.not_eq_eq_eq_not, Bool.not_true, decide_eq_false_iff_not]
    omega
  | unmarks _ inner room =>
    cases made with
    | cons k made => rfl
    | nil =>
      -- the innermost marker would be one of a frame further down
      cases outer with
      | nil =>
        have := low _ (lists.chained.symm.trans inner)
        omega
      | cons k outer =>
        have := lower k List.mem_cons_self
        have := lists.apart k List.mem_cons_self p.fp .here (by omega)
        have := Option.some.inj (lists.head.symm.trans inner)
        omega

/-- The innermost marker lies among the words. -/
theorem Lists.marker_lt (lists : p.Lists marks bottom) (low : ∀ b ∈ bottom, b < p.fp)
    (room : p.fp + 3 ≤ p.words.length) : p.marker.elim 0 (· + 1) ≤ p.words.length := by
  cases marks with
  | nil =>
    rw [show p.marker = bottom from lists.chained]
    cases bottom with
    | none => exact Nat.zero_le _
    | some b =>
      have := low b rfl
      simp only [Option.elim]
      omega
  | cons k marks =>
    have := (lists.inside k List.mem_cons_self).2
    rw [lists.head]
    simp only [Option.elim]
    omega

theorem Lists.mark {index : UInt16} (lists : p.Lists marks bottom)
    (step : Step (some (.mark index)) p q) (low : ∀ b ∈ bottom, b < p.fp)
    (room : p.fp + 3 ≤ p.words.length) (small : p.words.length < 2 ^ 63) :
    ∃ handlers, q.words[p.words.length + 1]? = some (.value handlers) ∧
      q.Lists (⟨p.fp, p.words.length, handlers⟩ :: marks) bottom := by
  cases step with
  | stays plain => exact absurd rfl (plain.1 index)
  | enters plain => exact absurd rfl (plain.1 index)
  | @marks _ _ _ handlers fp words marker =>
    have below : ∀ j < p.words.length, q.words[j]? = p.words[j]? := fun j small => by
      rw [words, List.getElem?_append_left small]
    have first : q.words[p.words.length]? = some (.value (.int (Size.signed (p.marker.elim 0 (· + 1))))) := by
      rw [words, List.getElem?_append_right le_rfl, Nat.sub_self]
      rfl
    have second : q.words[p.words.length + 1]? = some (.value handlers) := by
      rw [words, List.getElem?_append_right (Nat.le_add_right _ 1), Nat.add_sub_cancel_left]
      rfl
    have active : ∀ g, q.Active g ↔ p.Active g := fun g =>
      ⟨fun active => active.congr fp.symm fun j small => (below j (by omega)).symm,
        fun active => active.congr fp fun j small => below j (by omega)⟩
    have length : q.words.length = p.words.length + 2 := by rw [words, List.length_append]; rfl
    have kept : Chained q.words p.marker marks bottom := lists.chained.congr fun k member => by
      have := (lists.inside k member).2
      exact ⟨below _ (by omega), below _ (by omega)⟩
    refine ⟨handlers, second, ⟨marker, second, _, p.marker, first, ?_, kept⟩, ?_, ?_, ?_, ?_⟩
    · have := lists.marker_lt low room
      simp only [Size.signed, Size.ofInt]
      omega
    · exact List.forall_mem_cons.mpr ⟨(active _).mpr .here, fun k member =>
        (active _).mpr (lists.active k member)⟩
    · refine List.forall_mem_cons.mpr ⟨⟨room, length.ge⟩, fun k member => ?_⟩
      have := lists.inside k member
      omega
    · refine List.forall_mem_cons.mpr ⟨fun g isActive above => ?_, fun k member g isActive =>
        lists.apart k member g ((active g).mp isActive)⟩
      exact absurd (((active g).mp isActive).le) (Nat.not_le.mpr above)
    · refine List.pairwise_cons.mpr ⟨fun k member => ?_, lists.descending⟩
      have := (lists.inside k member).2
      dsimp only
      omega

theorem getElem?_move (j : Nat) : (p.move place).words[j]? = (p.words[j]?).map (Slot.carry place) :=
  List.getElem?_map

theorem length_move : (p.move place).words.length = p.words.length := List.length_map ..

theorem link_move {j : Nat} {l : Link} :
    (p.move place).words[j]? = some (.link l) ↔ p.words[j]? = some (.link l) := by
  rw [getElem?_move]
  cases p.words[j]? with
  | none => simp
  | some slot => cases slot <;> simp

theorem active_move : (p.move place).Active g ↔ p.Active g := by
  constructor
  · intro active
    induction active with
    | here => exact .here
    | under _ linked lower ih => exact .under ih (link_move.mp linked) lower
  · intro active
    induction active with
    | here => exact .here
    | under _ linked lower ih => exact .under ih (link_move.mpr linked) lower

theorem Lists.move (lists : p.Lists marks bottom) (place : Ref → Ref) :
    (p.move place).Lists (marks.map (Mark.move place)) bottom where
  chained := lists.chained.move place
  active := List.forall_mem_map.mpr fun k member => active_move.mpr (lists.active k member)
  inside := List.forall_mem_map.mpr fun k member => by
    rw [length_move]
    exact lists.inside k member
  apart := List.forall_mem_map.mpr fun k member g active => lists.apart k member g (active_move.mp active)
  descending := List.pairwise_map.mpr lists.descending

/-- There is room for the header of the top frame. -/
theorem Step.room (step : Step i p q) (room : p.fp + 3 ≤ p.words.length) :
    q.fp + 3 ≤ q.words.length := by
  cases step with
  | stays _ fp _ room => omega
  | enters _ fp _ _ _ room => omega
  | leaves _ _ lower fp _ words =>
    rw [words, List.length_set, List.length_take]
    omega
  | marks fp words =>
    rw [words, List.length_append]
    omega
  | unmarks fp _ room words =>
    rw [words, List.length_take]
    omega

/-- What lies below the operands of a frame stays as long as the frame is active. -/
theorem Step.below (step : Step i p q) (above : f ≤ p.fp) (above' : f ≤ q.fp)
    (room : p.fp + 3 ≤ p.words.length) : ∀ j < f + 3, q.words[j]? = p.words[j]? := by
  intro j low
  cases step with
  | stays _ _ below => exact below j (by omega)
  | enters _ _ below => exact below j (by omega)
  | leaves _ _ lower fp _ words =>
    rw [words, List.getElem?_set_ne (by omega), List.getElem?_take_of_lt (by omega)]
  | marks _ words => rw [words, List.getElem?_append_left (by omega)]
  | unmarks _ _ room words => rw [words, List.getElem?_take_of_lt (by omega)]

end Picture

/-- No object is larger than there are addresses. -/
theorem Heap.Sound.size_lt {h : Heap} {busy : Ref → Prop} {v : Value} {b : Body}
    (sound : h.Sound busy) (found : h.bodyOf? v = some b) : b.size < 2 ^ 63 := by
  obtain ⟨_, o, -, isObject, rfl⟩ := Heap.bodyOf?_eq_some.mp found
  have member : Size.roundUp o.body.size ∈ h.objects.toList.map fun o => Size.roundUp o.body.size :=
    List.mem_map.mpr ⟨o, Array.mem_toList_iff.mpr (Array.mem_of_getElem? isObject), rfl⟩
  have := List.single_le_sum (fun _ _ => Nat.zero_le _) _ member
  have := sound.accounted.used
  have := sound.accounted.fits
  have := sound.addressable
  have := Size.roundUp_ge o.body.size
  simp only [Space.addressLimit] at *
  omega

theorem Heap.Sound.height_lt {h : Heap} {busy : Ref → Prop} {v : Value} {s : Stack}
    (sound : h.Sound busy) (found : h.bodyOf? v = some (.stack s)) : s.height < 2 ^ 63 := by
  have := sound.size_lt found
  simp only [Body.size] at this
  omega

namespace Execution

variable {x y z w : Execution} {s : Stack} {r : Ref} {p q : Picture} {marks marks' : List Mark}

theorem Running.length_lt (running : x.Running) (depicts : x.suspended.Depicts r p) :
    p.words.length < 2 ^ 63 := by
  obtain ⟨s, atPc⟩ := running
  obtain ⟨-, rfl⟩ | ⟨home, -, -, s', isStack, shows⟩ := atPc.depicts.mp depicts
  · have := atPc.fits
    have := atPc.sound.store.heap.height_lt atPc.found
    rw [length_picture atPc.fits]
    omega
  · have := shows.room
    have := atPc.sound.store.heap.height_lt isStack
    omega

/-- The marks of the task `r` that its next instruction leaves. -/
def unmarked (x : Execution) (r : Ref) (marks : List Mark) : List Mark := Picture.left (x.doing r) x.fp marks

/-- The marks of the task `r` after its next instruction. -/
def marked (x : Execution) (r : Ref) (marks : List Mark) : List Mark :=
  match x.doing r with
  | some (.mark index) =>
    match Exec.constant index x with
    | .ok handlers _ => ⟨x.fp, x.sp, handlers⟩ :: marks
    | .error _ _ => marks
  | _ => x.unmarked r marks

end Execution

namespace Exec

open Execution (Running)

/-- The task `r` of `x` is followed until `y`, through steps of calls and through relocations. In
`y` it lies where `place` says. All the while its frame at `f` is active. Of the marks that it had,
and of those that it has made, `marks'` are left. If it is `careful`, it leaves the words of its
marks alone. -/
inductive Follows (careful : Prop) (x : Execution) (r : Ref) (marks : List Mark) (f : Nat) :
    (Ref → Ref) → Execution → List Mark → Prop
  | start : Follows careful x r marks f id x marks
  | stepped {place : Ref → Ref} {y z : Execution} {marks' : List Mark} {p q : Picture}
      (follows : Follows careful x r marks f place y marks') (running : y.Running)
      (done : step y = .ok () z) (before : y.suspended.Depicts (place r) p)
      (after : z.suspended.Depicts (place r) q) (above : f ≤ q.fp)
      (keeps : careful → Picture.Keeps (y.unmarked (place r) marks') p q) :
      Follows careful x r marks f place { z with shortage := none } (y.marked (place r) marks')
  | carried {place more : Ref → Ref} {y w : Execution} {marks' : List Mark}
      (follows : Follows careful x r marks f place y marks') (known : y.suspended.Knows (place r))
      (conveys : y.suspended.Conveys more w.suspended) :
      Follows careful x r marks f (more ∘ place) w (marks'.map (Mark.move more))

variable {careful : Prop} {x y z : Execution} {r : Ref} {marks marks' : List Mark} {f : Nat}
  {place : Ref → Ref} {p q : Picture} {bottom : Option Nat}

section

variable (running : y.Running)
include running

/-- A task whose stack runs is pictured with the registers. -/
theorem doing_registers {i : Instruction} (isNext : y.doing r = some i)
    (depicts : y.suspended.Depicts r p) : p.fp = y.fp ∧ p.words.length = y.sp := by
  obtain ⟨s, atPc⟩ := running
  unfold Execution.doing at isNext
  split at isNext
  · rename_i here
    cases depicts.unique (atPc.depicts.mpr (.inl ⟨here, rfl⟩))
    exact ⟨rfl, Execution.length_picture atPc.fits⟩
  · cases isNext

theorem unmarked_eq (depicts : y.suspended.Depicts r p) :
    y.unmarked r marks = Picture.left (y.doing r) p.fp marks := by
  unfold Execution.unmarked
  cases isNext : y.doing r with
  | none => rfl
  | some i => rw [(doing_registers running isNext depicts).1]

theorem marked_eq (depicts : y.suspended.Depicts r p)
    (noMark : ∀ index, y.doing r ≠ some (.mark index)) :
    y.marked r marks = Picture.left (y.doing r) p.fp marks := by
  rw [← unmarked_eq running depicts, Execution.marked]
  split
  · exact absurd ‹_› (noMark _)
  · rfl

theorem step_depicts (done : step y = .ok () z) (before : y.suspended.Depicts r p)
    (after : z.suspended.Depicts r q) : Picture.Step (y.doing r) p q := by
  obtain ⟨q', after', step⟩ | ⟨-, gone⟩ := step_pictures running done before
  · cases after.unique after'
    exact step
  · exact absurd after (gone q)

/-- The instruction that is next for a task is the one that is carried out. -/
theorem executing_of_doing {i : Instruction} (isNext : y.doing r = some i) :
    ∃ s a n, y.heap.Houses r y.stack ∧ y.At s y.pc ∧ (y.fetched i).Executing s a n y.pc i ∧
      step y = execute y.pc (y.pc + i.size) i (y.fetched i) := by
  unfold Execution.doing at isNext
  split at isNext
  rotate_left
  · cases isNext
  rename_i here
  have above : y.fp ≠ 0 := fun isBottom => by
    rw [Execution.instruction?, if_pos isBottom] at isNext
    cases isNext
  obtain ⟨s, a, n, frame, path⟩ := running.frame above
  obtain ⟨s', atPc⟩ := running
  cases frame.found.symm.trans atPc.found
  have decoded : Instruction.decodeAt a.units y.pc = .ok i := by
    cases decoded : Instruction.decodeAt a.units y.pc with
    | ok j =>
      cases (frame.instruction?_eq decoded).symm.trans isNext
      rfl
    | error violation =>
      obtain ⟨l, c, isLambda, isCode, units, -⟩ := frame.records
      rw [← units] at decoded
      simp [Execution.instruction?, isLambda, isCode, decoded, above, Except.toOption] at isNext
  refine ⟨s, a, n, here, atPc, frame.fetch path decoded, ?_⟩
  rw [step_eq frame, decoded]

/-- The handlers of a mark are a constant of the lambda that runs. -/
theorem step_mark {index : UInt16} (isNext : y.doing r = some (.mark index))
    (done : step y = .ok () z) (after : z.suspended.Depicts r q) :
    ∃ handlers, constant index y = .ok handlers y ∧
      q.words[y.sp + 1]? = some (.value handlers) := by
  obtain ⟨s, a, n, here, atPc, e, isStep⟩ := executing_of_doing running isNext
  obtain ⟨s', atPc'⟩ := step_running running done
  rw [isStep] at done
  obtain ⟨handlers, isConstant, rfl⟩ := mark_ok e.found done
  obtain ⟨l, t, isLambda, isTuple, isElement⟩ := constant_ok.mp isConstant
  refine ⟨handlers, constant_ok.mpr ⟨l, t, isLambda, isTuple, isElement⟩, ?_⟩
  have there : ((y.fetched (.mark index)).markedBy s handlers).heap.Houses r y.stack :=
    (Execution.houses_withStack (x := y.fetched (.mark index)) e.found).mpr here
  cases after.unique (atPc'.depicts.mpr (.inl ⟨there, rfl⟩))
  cases atPc'.found.symm.trans (Execution.found_withStack (x := y.fetched (.mark index)) e.found _)
  have := atPc.fits
  have inside : y.sp + 1 < s.words.size := this
  refine (Stack.getElem?_loose _ (y.sp + 2) (y.sp + 1)).trans ?_
  rw [if_pos (by omega)]
  refine congrArg (Option.map Slot.loosen) (Array.getElem?_setIfInBounds_self_of_lt ?_)
  exact inside.trans_eq (Array.size_setIfInBounds ..).symm

theorem step_lists (done : step y = .ok () z) (before : y.suspended.Depicts r p)
    (after : z.suspended.Depicts r q) (lists : p.Lists marks bottom)
    (keeps : Picture.Keeps (y.unmarked r marks) p q) (low : ∀ b ∈ bottom, b < p.fp)
    (room : p.fp + 3 ≤ p.words.length) : q.Lists (y.marked r marks) bottom := by
  have stepped := step_depicts running done before after
  rw [unmarked_eq running before] at keeps
  by_cases isMark : ∃ index, y.doing r = some (.mark index)
  · obtain ⟨index, isMark⟩ := isMark
    obtain ⟨isFrame, isTop⟩ := doing_registers running isMark before
    rw [isMark] at stepped
    obtain ⟨handlers, isHandlers, lists'⟩ := lists.mark stepped low room (running.length_lt before)
    obtain ⟨handlers', isConstant, isHandlers'⟩ := step_mark running isMark done after
    rw [isTop] at isHandlers
    cases isHandlers.symm.trans isHandlers'
    simpa only [Execution.marked, isMark, isConstant, isFrame, isTop] using lists'
  · have noMark : ∀ index, y.doing r ≠ some (.mark index) := fun index isIndex => isMark ⟨index, isIndex⟩
    rw [marked_eq running before noMark]
    exact lists.step stepped noMark keeps low

end

namespace Follows

/-- As long as a frame is active, what lies below its operands stays, and the chain of markers is
that of the marks. -/
theorem kept (follows : Follows careful x r marks f place y marks')
    (depicts : x.suspended.Depicts r p) (above : f ≤ p.fp) (room : p.fp + 3 ≤ p.words.length) :
    ∃ q, y.suspended.Depicts (place r) q ∧ f ≤ q.fp ∧ q.fp + 3 ≤ q.words.length ∧
      (∀ j < f + 3, q.words[j]? = (p.words[j]?).map (Slot.carry place)) ∧ ∀ bottom, careful →
      p.Lists marks bottom → (∀ b ∈ bottom, b < f) → q.Lists marks' bottom := by
  induction follows with
  | start =>
    refine ⟨p, depicts, above, room, fun j _ => ?_, fun _ _ lists _ => lists⟩
    rw [funext Slot.carry_id, Option.map_id']
  | stepped _ running done before after above' keeps ih =>
    obtain ⟨p', depicts', above, room, words, lists⟩ := ih
    cases before.unique depicts'
    have step := step_depicts running done before after
    refine ⟨_, after, above', step.room room, fun j low => ?_, fun bottom isCareful lists₀ low => ?_⟩
    · rw [step.below above above' room j low, words j low]
    · exact step_lists running done before after (lists bottom isCareful lists₀ low) (keeps isCareful)
        (fun b member => (low b member).trans_le above) room
  | @carried place more y w marks' _ known conveys ih =>
    obtain ⟨p', depicts', above, room, words, lists⟩ := ih
    refine ⟨p'.move more, conveys.holds _ _ known depicts', above, ?_, fun j low => ?_,
      fun bottom isCareful lists₀ low => (lists bottom isCareful lists₀ low).move more⟩
    · rw [Picture.length_move]
      exact room
    · rw [Picture.getElem?_move, words j low, Option.map_map]
      congr 1
      exact funext fun slot => slot.carry_carry place more

/-- The marks of frames further down stay in place: those that are made meanwhile come before
them. -/
theorem outer (follows : Follows careful x r marks f place y marks')
    (depicts : x.suspended.Depicts r p)
    (above : f ≤ p.fp) (room : p.fp + 3 ≤ p.words.length) (isCareful : careful)
    (lists₀ : p.Lists marks bottom) (low : ∀ b ∈ bottom, b < f) (lower : ∀ k ∈ marks, k.frame < f) :
    ∃ made, marks' = made ++ marks.map (Mark.move place) ∧ (∀ k ∈ made, f ≤ k.frame) ∧
      Follows careful x r [] f place y made := by
  induction follows with
  | start => exact ⟨[], by simp [funext Mark.move_id], nofun, .start⟩
  | @stepped place y z marks' p₁ q follows running done before after above' keeps ih =>
    obtain ⟨made, rfl, high, follows'⟩ := ih
    obtain ⟨p', depicts', above, room, -, lists⟩ := follows.kept depicts above room
    cases before.unique depicts'
    have lower : ∀ k ∈ marks.map (Mark.move place), k.frame < f := List.forall_mem_map.mpr lower
    have isLeft := (lists bottom isCareful lists₀ low).left_append
      (step_depicts running done before after) above lower low
    have keeps' : careful → Picture.Keeps (y.unmarked (place r) made) p₁ q := by
      intro isCareful k member
      rw [unmarked_eq running before] at member
      refine keeps isCareful k ?_
      rw [unmarked_eq running before, isLeft]
      exact List.mem_append_left _ member
    have follows₁ := follows'.stepped running done before after above' keeps'
    by_cases isMark : ∃ index, y.doing (place r) = some (.mark index)
    · obtain ⟨index, isMark⟩ := isMark
      obtain ⟨isFrame, -⟩ := doing_registers running isMark before
      obtain ⟨handlers, isConstant, -⟩ := step_mark running isMark done after
      have isMarked others : y.marked (place r) others = ⟨y.fp, y.sp, handlers⟩ :: others := by
        simp [Execution.marked, isMark, isConstant]
      rw [isMarked] at follows₁ ⊢
      exact ⟨_, rfl, List.forall_mem_cons.mpr ⟨isFrame ▸ above, high⟩, follows₁⟩
    · have noMark : ∀ index, y.doing (place r) ≠ some (.mark index) := fun index isIndex => isMark ⟨index, isIndex⟩
      rw [marked_eq running before noMark] at follows₁ ⊢
      exact ⟨_, isLeft, fun k member => high k (Picture.left_subset _ _ _ member), follows₁⟩
  | @carried place more y w marks' _ known conveys ih =>
    obtain ⟨made, rfl, high, follows'⟩ := ih
    refine ⟨made.map (Mark.move more), ?_, List.forall_mem_map.mpr high, follows'.carried known conveys⟩
    rw [List.map_append, List.map_map]
    congr 2
    exact funext (Mark.move_move place more)

end Follows

end Exec

end ObjectMachine
