/-
# ObjectMachine.Proofs.ParkedStack -- a parked stack on the move

The frames of a parked stack are linked down to the bottom frame at offset 0, each to one that lies
lower by at least a header (`Stack.Chain`). The chain is the same whether its links are addresses or
offsets, so it is stated once, over the form `link` of a link.

* `relink_chain` -- converting the links of a chain changes those links and no other word.
* `liveFrom_chain` -- the words that are visited in between are all but the program counters and the
  links, and none is visited twice.
* `cooks_anywhere` -- hence a stack can be uncooked, copied, and cooked again at any place.
* `uncook_parked`, `recook_visited` -- where frames hold values (`Stack.Frames`), moving a stack
  moves them.
-/
import Mathlib
import ObjectMachine.Proofs.Fields

namespace ObjectMachine

namespace Slot

/-- The slot with its link, if it is one, sent through `f`. -/
def mapLink (f : Link → Link) : Slot → Slot
  | link l => link (f l)
  | value v => value v

/-- The slot with its value, if it is one, sent through `f`. -/
def mapValue (f : Value → Value) : Slot → Slot
  | link l => link l
  | value v => value (f v)

@[simp] theorem mapLink_value (f : Link → Link) (v : Value) : (value v).mapLink f = value v := rfl

@[simp] theorem mapLink_link (f : Link → Link) (l : Link) : (link l).mapLink f = link (f l) := rfl

@[simp] theorem mapValue_value (f : Value → Value) (v : Value) : (value v).mapValue f = value (f v) := rfl

@[simp] theorem mapValue_link (f : Value → Value) (l : Link) : (link l).mapValue f = link l := rfl

end Slot

namespace Link

/-- The link as an offset. -/
def loosen : Link → Link
  | .address _ position => .offset position
  | l => l

/-- The link as an address in the stack at `home`. -/
def tighten (home : Ref) : Link → Link
  | .bottom => .bottom
  | .address _ position | .offset position => .address home position

end Link

namespace Slot

/-- The slot in a stack that has gone to `home`, when objects have gone where `place` says. -/
def move (place : Ref → Ref) (home : Ref) : Slot → Slot
  | value v => value (v.move place)
  | link l => link (l.tighten home)

/-- The value of a slot that holds one. -/
def value? : Slot → Option Value
  | value v => some v
  | link _ => none

end Slot

namespace Stack

variable {starts : List Nat} {words : Array Slot} {other : Array Slot}

/-- Every word from `first` up to `limit` holds a value. -/
def HoldsValues (words : Array Slot) (first limit : Nat) : Prop :=
  ∀ i, first ≤ i → i < limit → ∃ v, words[i]? = some (.value v)

/-- The frames from the one at `frame` down to the bottom frame at offset 0: program counter, link,
lambda and operands each. Links have the form `link`, and the operands of the frame at `frame` end
at `limit`. -/
inductive Frames (words : Array Slot) (link : Nat → Link) : Nat → Nat → Prop
  | bottom {limit : Nat} {pc : Int} (counter : words[0]? = some (.value (.int pc)))
      (bottomLink : words[1]? = some (.link .bottom)) (values : HoldsValues words 2 limit)
      (room : 3 ≤ limit) : Frames words link 0 limit
  | frame {frame below limit : Nat} {pc : Int} (counter : words[frame]? = some (.value (.int pc)))
      (linked : words[frame + 1]? = some (.link (link below)))
      (values : HoldsValues words (frame + 2) limit) (room : frame + 3 ≤ limit)
      (descends : below + 3 ≤ frame) (rest : Frames words link below frame) :
      Frames words link frame limit

namespace Frames

variable {words : Array Slot} {link : Nat → Link} {frame limit : Nat}

variable (chain : Frames words link frame limit)
include chain

theorem room_above : frame + 3 ≤ limit := by
  cases chain with
  | bottom _ _ _ room => simpa using room
  | frame _ _ _ room _ _ => exact room

theorem limit_le_size : limit ≤ words.size := by
  have room := chain.room_above
  have values : HoldsValues words (frame + 2) limit := by
    cases chain with
    | bottom _ _ values _ => exact values
    | frame _ _ values _ _ _ => exact values
  obtain ⟨v, found⟩ := values (limit - 1) (by omega) (by omega)
  have := (Array.getElem?_eq_some_iff.mp found).1
  omega

/-- A chain is read only below its limit. -/
theorem congr (same : ∀ i, i < limit → other[i]? = words[i]?) : Frames other link frame limit := by
  induction chain with
  | bottom counter bottomLink values room =>
    refine .bottom ((same _ (by omega)).trans counter) ((same _ (by omega)).trans bottomLink) ?_ room
    intro i low high
    rw [same i high]
    exact values i low high
  | frame counter linked values room descends rest ih =>
    refine .frame ((same _ (by omega)).trans counter) ((same _ (by omega)).trans linked) ?_ room
      descends (ih fun i high => same i (by omega))
    intro i low high
    rw [same i high]
    exact values i low high

/-- Rewriting the links and the values of a chain gives a chain again, as long as program counters
stay integers. -/
theorem map {target : Nat → Link} {f : Link → Link}
    {g : Value → Value} (links : ∀ offset, f (link offset) = target offset)
    (bottom : f .bottom = .bottom) (counters : ∀ n, g (.int n) = .int n) (mapped : ∀ i, i < limit →
      other[i]? = (words[i]?).map fun slot => (slot.mapLink f).mapValue g) :
    Frames other target frame limit := by
  have moveValues : ∀ {first last : Nat}, last ≤ limit → HoldsValues words first last →
      HoldsValues other first last := by
    intro first last inside values i low high
    obtain ⟨v, found⟩ := values i low high
    exact ⟨g v, by simp [mapped i (by omega), found]⟩
  induction chain with
  | @bottom limit pc counter bottomLink values room =>
    have moved : other[0]? = some (.value (.int pc)) := by
      simp [mapped 0 (by omega), counter, counters]
    exact .bottom moved (by simp [mapped 1 (by omega), bottomLink, bottom]) (moveValues le_rfl values) room
  | @frame frame below limit pc counter linked values room descends rest ih =>
    have moved : other[frame]? = some (.value (.int pc)) := by
      simp [mapped frame (by omega), counter, counters]
    exact .frame moved (by simp [mapped (frame + 1) (by omega), linked, links])
      (moveValues le_rfl values) room descends
      (ih (fun i high => mapped i (by omega)) fun inside => moveValues (by omega))

end Frames

/-- The words below `limit` sent through `f`. -/
def mapBelow (limit : Nat) (f : Slot → Slot) (words : Array Slot) : Array Slot :=
  words.mapIdx fun i slot => if i < limit then f slot else slot

@[simp] theorem size_mapBelow (limit : Nat) (f : Slot → Slot) (words : Array Slot) :
    (mapBelow limit f words).size = words.size := by
  simp [mapBelow]

theorem getElem?_mapBelow (limit : Nat) (f : Slot → Slot) (words : Array Slot) (i : Nat) :
    (mapBelow limit f words)[i]? = (words[i]?).map fun slot =>
      if i < limit then f slot else slot := by
  simp [mapBelow]

theorem mapBelow_mapBelow (limit : Nat) (f g : Slot → Slot) (words : Array Slot) :
    mapBelow limit f (mapBelow limit g words) = mapBelow limit (f ∘ g) words := by
  apply Array.ext_getElem?
  intro i
  simp only [getElem?_mapBelow, Option.map_map]
  congr 1
  funext slot
  by_cases inside : i < limit <;> simp [inside]

/-- The frames of a stack, from the one at `top` down: each is linked to the next, which lies lower
by at least a header, and the bottom frame at offset 0 has the bottom link. -/
inductive Chain (words : Array Slot) (link : Nat → Link) : Nat → List Nat → Prop
  | bottom (linked : words[1]? = some (.link .bottom)) : Chain words link 0 []
  | frame {top below : Nat} {rest : List Nat} (linked : words[top + 1]? = some (.link (link below)))
      (descends : below + 3 ≤ top) (chain : Chain words link below rest) : Chain words link top (below :: rest)

/-- The words with the links of the frames that start at `starts` sent through `f`. -/
def onLinks (starts : List Nat) (f : Link → Link) (words : Array Slot) : Array Slot :=
  words.mapIdx fun i slot => if ∃ start ∈ starts, i = start + 1 then slot.mapLink f else slot

@[simp] theorem size_onLinks (starts : List Nat) (f : Link → Link) (words : Array Slot) :
    (onLinks starts f words).size = words.size := by
  simp [onLinks]

theorem getElem?_onLinks_link {start : Nat}
    (member : start ∈ starts) (f : Link → Link) (words : Array Slot) :
    (onLinks starts f words)[start + 1]? = (words[start + 1]?).map (Slot.mapLink f) := by
  simp [onLinks, member]

theorem getElem?_onLinks_other {i : Nat} (apart : ∀ start ∈ starts, i ≠ start + 1)
    (f : Link → Link) (words : Array Slot) : (onLinks starts f words)[i]? = words[i]? := by
  have other : ¬ ∃ start ∈ starts, i = start + 1 := by simpa using apart
  simp [onLinks, other]

section Chains

variable {words : Array Slot} {link : Nat → Link} {top fuel : Nat} {rest : List Nat} {f : Link → Link}

theorem Chain.le_top (chain : Chain words link top rest) : ∀ start ∈ top :: rest, start ≤ top := by
  induction chain with
  | bottom => simp
  | frame _ descends _ ih => exact List.forall_mem_cons.mpr ⟨le_rfl, fun _ member => (ih _ member).trans (by omega)⟩

theorem Chain.linked (chain : Chain words link top rest) :
    ∀ start ∈ top :: rest, ∃ l, words[start + 1]? = some (.link l) := by
  induction chain with
  | bottom linked => simpa using ⟨_, linked⟩
  | frame linked _ _ ih => exact List.forall_mem_cons.mpr ⟨⟨_, linked⟩, ih⟩

/-- A chain is read from its links only. -/
theorem Chain.map (chain : Chain words link top rest) {target : Nat → Link}
    (links : ∀ offset, f (link offset) = target offset) (bottom : f .bottom = .bottom)
    (mapped : ∀ start ∈ top :: rest, other[start + 1]? = (words[start + 1]?).map (Slot.mapLink f)) :
    Chain other target top rest := by
  induction chain with
  | bottom linked => exact .bottom (by simp [mapped 0 (by simp), linked, bottom])
  | @frame top below rest linked descends chain ih =>
    refine .frame (by simp [mapped top (by simp), linked, links]) descends ?_
    exact ih fun start member => mapped start (List.mem_cons_of_mem _ member)

/-- Converting the links of a chain rewrites exactly those links. Above the link of the frame at
`top`, where the conversion has been, the words may already differ. -/
theorem relink_chain (chain : Chain words link top rest)
    {convert : Slot → Except Violation (Option (Link × Nat))} (bottom : f .bottom = .bottom)
    (convertLink : ∀ offset, convert (.link (link offset)) = .ok (some (f (link offset), offset)))
    (convertBottom : convert (.link .bottom) = .ok none) (enough : top < fuel) {before : Array Slot}
    (same : ∀ i, i ≤ top + 1 → before[i]? = words[i]?) :
    relink convert fuel top before = .ok (onLinks (top :: rest) f before) := by
  induction chain generalizing fuel before with
  | bottom linked =>
    obtain ⟨fuel, rfl⟩ : ∃ less, fuel = less + 1 := ⟨fuel - 1, by omega⟩
    have found : before[0 + 1]? = some (.link .bottom) := (same 1 le_rfl).trans linked
    have unchanged : onLinks [0] f before = before := by
      apply Array.ext_getElem?
      intro i
      by_cases here : i = 0 + 1
      · simp [here, getElem?_onLinks_link, found, bottom]
      · exact getElem?_onLinks_other (by simpa using here) f before
    simp only [relink, Frame.linkWord, found, convertBottom, unchanged]
    rfl
  | @frame top below rest linked descends chain ih =>
    obtain ⟨fuel, rfl⟩ : ∃ less, fuel = less + 1 := ⟨fuel - 1, by omega⟩
    have found : before[top + 1]? = some (.link (link below)) := (same _ le_rfl).trans linked
    -- the write at `top + 1` is above everything the rest of the chain reads
    have sameBelow : ∀ i, i ≤ below + 1 →
        (before.setIfInBounds (top + 1) (.link (f (link below))))[i]? = words[i]? := by
      intro i low
      rw [Array.getElem?_setIfInBounds_ne (by omega)]
      exact same i (by omega)
    simp only [relink, Frame.linkWord, found, convertLink]
    refine (@ih fuel (by omega) _ sameBelow).trans (congrArg Except.ok ?_)
    apply Array.ext_getElem?
    intro i
    by_cases isLink : ∃ start ∈ below :: rest, i = start + 1
    · obtain ⟨start, member, rfl⟩ := isLink
      have := chain.le_top start member
      rw [getElem?_onLinks_link member, getElem?_onLinks_link (List.mem_cons_of_mem _ member),
        Array.getElem?_setIfInBounds_ne (by omega)]
    · have apart : ∀ start ∈ below :: rest, i ≠ start + 1 := by simpa using isLink
      rw [getElem?_onLinks_other apart]
      by_cases here : i = top + 1
      · rw [here, getElem?_onLinks_link List.mem_cons_self, found,
          Array.getElem?_setIfInBounds_self_of_lt (Array.getElem?_eq_some_iff.mp found).1]
        rfl
      · rw [getElem?_onLinks_other (List.forall_mem_cons.mpr ⟨here, apart⟩),
          Array.getElem?_setIfInBounds_ne (Ne.symm here)]

/-- What is visited from the frame at `top` down: every word below `limit` once, but for the program
counters and the links of the frames. -/
theorem liveFrom_chain (chain : Chain words .offset top rest) {limit : Nat} (room : top + 3 ≤ limit)
    (enough : top < fuel) : ∃ slots, liveFrom words fuel top limit = .ok slots ∧ slots.Nodup ∧
      ∀ i, i ∈ slots ↔ i < limit ∧ ∀ start ∈ top :: rest, i ≠ start ∧ i ≠ start + 1 := by
  induction chain generalizing fuel limit with
  | bottom linked =>
    obtain ⟨fuel, rfl⟩ : ∃ less, fuel = less + 1 := ⟨fuel - 1, by omega⟩
    refine ⟨List.range' 2 (limit - 2), ?_, List.nodup_range', fun i => ?_⟩
    · simp only [liveFrom, Frame.linkWord, Frame.size, Frame.lambdaWord, linked]
      rw [show limit - 2 = limit - (0 + 3) + 1 by omega, List.range'_succ]
      rfl
    · simp only [List.mem_range'_1, List.mem_singleton, forall_eq]
      omega
  | @frame top below rest linked descends chain ih =>
    obtain ⟨fuel, rfl⟩ : ∃ less, fuel = less + 1 := ⟨fuel - 1, by omega⟩
    obtain ⟨slots, isLive, distinct, exactly⟩ := @ih fuel top descends (by omega)
    have le_below := chain.le_top
    refine ⟨List.range' (top + 2) (limit - (top + 2)) ++ slots, ?_, ?_, fun i => ?_⟩
    · simp only [liveFrom, Frame.linkWord, Frame.size, Frame.lambdaWord, linked, isLive]
      rw [show limit - (top + 2) = limit - (top + 3) + 1 by omega, List.range'_succ]
      rfl
    · refine List.Nodup.append List.nodup_range' distinct fun i here lower => ?_
      have := List.mem_range'_1.mp here
      have := (exactly i).mp lower
      omega
    · rw [List.mem_append, List.mem_range'_1, exactly, List.forall_mem_cons (l := below :: rest)]
      constructor
      · rintro (here | ⟨low, apart⟩)
        · refine ⟨by omega, by omega, fun start member => ?_⟩
          have := le_below start member
          omega
        · exact ⟨by omega, by omega, apart⟩
      · rintro ⟨high, ⟨notCounter, notLink⟩, apart⟩
        by_cases low : i < top
        · exact .inr ⟨low, apart⟩
        · exact .inl (by omega)

end Chains

/-- The chain of frames that hold values beside their links, and integers as their program
counters. -/
theorem Frames.chain {link : Nat → Link} {top limit : Nat}
    (frames : Frames words link top limit) : ∃ rest, Chain words link top rest ∧
      (∀ start ∈ top :: rest, ∃ pc, words[start]? = some (.value (.int pc))) ∧
      ∀ i < limit, (∀ start ∈ top :: rest, i ≠ start + 1) → ∃ v, words[i]? = some (.value v) := by
  induction frames with
  | bottom counter bottomLink values room =>
    refine ⟨[], .bottom bottomLink, by simpa using ⟨_, counter⟩, fun i high apart => ?_⟩
    obtain rfl | differs := eq_or_ne i 0
    · exact ⟨_, counter⟩
    · exact values i (by simp at apart; omega) high
  | @frame top below limit pc counter linked values room descends frames ih =>
    obtain ⟨rest, chain, counters, others⟩ := ih
    refine ⟨below :: rest, .frame linked descends chain, List.forall_mem_cons.mpr ⟨⟨_, counter⟩, counters⟩,
      fun i high apart => ?_⟩
    obtain ⟨notLink, apart⟩ := List.forall_mem_cons.mp apart
    obtain low | rfl | above : i < top ∨ i = top ∨ top + 2 ≤ i := by omega
    · exact others i low apart
    · exact ⟨_, counter⟩
    · exact values i above high

/-- What is visited below `limit`: words that hold values, none of them twice, and all that hold
anything but an integer. -/
structure Visits (words : Array Slot) (limit : Nat) (slots : List Nat) : Prop where
  distinct : slots.Nodup
  value : ∀ i ∈ slots, i < limit ∧ ∃ v, words[i]? = some (.value v)
  complete : ∀ i v, i < limit → words[i]? = some (.value v) → i ∈ slots ∨ ∃ n, v = .int n

/-- The stack at `home` is parked with its parking frame at `top`, and its links are addresses. -/
structure ParkedAt (s : Stack) (home : Ref) (top : Nat) : Prop where
  status : s.status = .parked
  mode : s.mode = .linked
  top_eq : s.top = .address home top
  frames : Frames s.words (.address home) top (top + 3)

/-- The stack is parked with its parking frame at `top`, and its links are offsets. -/
structure LooseAt (s : Stack) (top : Nat) : Prop where
  status : s.status = .parked
  mode : s.mode = .relocatable
  top_eq : s.top = .offset top
  frames : Frames s.words .offset top (top + 3)

/-- The stack with its links as offsets. -/
def loosened (s : Stack) (top : Nat) : Stack :=
  { s with words := mapBelow (top + 3) (Slot.mapLink Link.loosen) s.words
           top := .offset top
           mode := .relocatable }

/-- The stack with its links as addresses in the stack at `home`. -/
def tightened (s : Stack) (home : Ref) (top : Nat) : Stack :=
  { s with words := mapBelow (top + 3) (Slot.mapLink (Link.tighten home)) s.words
           top := .address home top
           mode := .linked }

/-- The stack with the values below the end of the parking frame sent through `g`. -/
def mapValues (s : Stack) (top : Nat) (g : Value → Value) : Stack :=
  { s with words := mapBelow (top + 3) (Slot.mapValue g) s.words }

variable {s : Stack} {home : Ref} {top : Nat}

/-- The stack is parked in the given mode, with links of the form `link`, and has frames at `top`
and, below it, at `rest`. -/
structure Chained (s : Stack) (mode : StackMode) (link : Nat → Link) (top : Nat) (rest : List Nat) : Prop where
  status : s.status = .parked
  mode_eq : s.mode = mode
  top_eq : s.top = link top
  chain : Chain s.words link top rest
  inside : top + 3 ≤ s.height

section Chained

variable {rest : List Nat}

/-- The stack with the links of its frames as offsets. -/
def withOffsets (s : Stack) (top : Nat) (rest : List Nat) : Stack :=
  { s with words := onLinks (top :: rest) Link.loosen s.words, top := .offset top, mode := .relocatable }

/-- The stack with the links of its frames as addresses in the stack at `home`. -/
def withAddresses (s : Stack) (home : Ref) (top : Nat) (rest : List Nat) : Stack :=
  { s with words := onLinks (top :: rest) (Link.tighten home) s.words, top := .address home top, mode := .linked }

theorem Chained.fuel {mode : StackMode} {link : Nat → Link}
    (chained : s.Chained mode link top rest) : top < s.chainFuel := by
  have := chained.inside
  unfold chainFuel
  omega

/-- Uncooking turns the links of the frames into offsets and does nothing else. -/
theorem uncook_chained (chained : s.Chained .linked (.address home) top rest) :
    s.uncook home = .ok (s.withOffsets top rest) := by
  have inside : ∀ offset, toOffset home (.link (.address home offset)) =
      .ok (some (.offset offset, offset)) := by
    intro offset
    simp [toOffset, Slot.place]
  have relinked : relink (toOffset home) s.chainFuel top s.words =
      .ok (onLinks (top :: rest) Link.loosen s.words) :=
    relink_chain chained.chain rfl inside rfl chained.fuel fun _ _ => rfl
  simp only [uncook, chained.status, chained.mode_eq, chained.top_eq, inside, reduceCtorEq, if_false]
  change (relink (toOffset home) s.chainFuel top s.words >>= _) = _
  rw [relinked, withOffsets, chained.status]
  rfl

/-- Cooking turns the links of the frames into addresses and does nothing else. -/
theorem recook_chained (chained : s.Chained .relocatable .offset top rest) :
    s.recook home = .ok (s.withAddresses home top rest) := by
  have relinked : relink (toAddress home) s.chainFuel top s.words =
      .ok (onLinks (top :: rest) (Link.tighten home) s.words) :=
    relink_chain chained.chain rfl (fun _ => rfl) rfl chained.fuel fun _ _ => rfl
  simp only [recook, chained.status, chained.mode_eq, chained.top_eq, toAddress, reduceCtorEq, if_false]
  change (relink (toAddress home) s.chainFuel top s.words >>= _) = _
  rw [relinked, withAddresses, chained.status]
  rfl

theorem liveSlots_chained (chained : s.Chained .relocatable .offset top rest) :
    ∃ slots, s.liveSlots = .ok slots ∧ slots.Nodup ∧
      ∀ i, i ∈ slots ↔ i < top + 3 ∧ ∀ start ∈ top :: rest, i ≠ start ∧ i ≠ start + 1 := by
  obtain ⟨slots, isLive, distinct, exactly⟩ := liveFrom_chain chained.chain le_rfl chained.fuel
  refine ⟨slots, ?_, distinct, exactly⟩
  simpa [liveSlots, chained.status, chained.mode_eq, chained.top_eq, Frame.size] using isLive

/-- A stack that is not lower takes all words of a loose one. -/
theorem copyContents_cases (buffer old : Stack) : (old.mode = .linked ∨ buffer.height < old.height) ∧
      (∃ violation, buffer.copyContents old = .error violation) ∨
    old.height ≤ buffer.height ∧ ∃ words, buffer.copyContents old = .ok { old with words } ∧
      words.size = buffer.height ∧ ∀ i < old.height, words[i]? = old.words[i]? := by
  unfold copyContents
  split
  · exact .inl ⟨.inl ‹_›, _, rfl⟩
  split
  · exact .inl ⟨.inr ‹_›, _, rfl⟩
  · rename_i high
    refine .inr ⟨Nat.not_lt.mp high, _, rfl, ?_, fun i inside => Array.getElem?_append_left inside⟩
    simp only [Array.size_append, Array.size_extract, height] at high ⊢
    omega

/-- `t` has the frames of `s`, linked by addresses in the stack at `target`, and all other words of
`s`. -/
structure CookedAs (s t : Stack) (target : Ref) (top : Nat) (rest : List Nat) : Prop where
  chained : t.Chained .linked (.address target) top rest
  marker : t.marker = s.marker
  words : ∀ i < s.height, (∀ start ∈ top :: rest, i ≠ start + 1) → t.words[i]? = s.words[i]?

variable (chained : s.Chained .linked (.address home) top rest)
include chained

/-- The loose words of a stack may stand in any buffer that is not lower. -/
theorem recook_copy (higher : s.height ≤ words.size)
    (same : ∀ i < s.height, words[i]? = (s.withOffsets top rest).words[i]?) (target : Ref) :
    ∃ t, { s.withOffsets top rest with words }.recook target = .ok t ∧ t.height = words.size ∧
      s.CookedAs t target top rest := by
  have loose : { s.withOffsets top rest with words }.Chained .relocatable .offset top rest := by
    refine ⟨chained.status, rfl, rfl, chained.chain.map (f := Link.loosen) (fun _ => rfl) rfl ?_,
      chained.inside.trans higher⟩
    intro start member
    have := chained.chain.le_top start member
    have := chained.inside
    exact (same _ (by omega)).trans (getElem?_onLinks_link member _ _)
  have cooked := loose.chain.map (f := Link.tighten target) (fun _ => rfl) rfl
    fun start member => getElem?_onLinks_link member _ _
  refine ⟨_, recook_chained loose, by simp [height, withAddresses], ⟨chained.status, rfl, rfl, cooked, ?_⟩, rfl, ?_⟩
  · simpa [height, withAddresses] using chained.inside.trans higher
  · intro i inside apart
    exact (getElem?_onLinks_other apart _ _).trans ((same i inside).trans (getElem?_onLinks_other apart _ _))

/-- A parked stack can be uncooked, copied and cooked again wherever its buffer has gone. In
between, the lambdas of its frames and the operands of all but the parking frame are visited, each
once. -/
theorem cooks_anywhere : ∃ loose slots, s.uncook home = .ok loose ∧ loose.liveSlots = .ok slots ∧ slots.Nodup ∧
      (∀ i, i ∈ slots ↔ i < top + 3 ∧ ∀ start ∈ top :: rest, i ≠ start ∧ i ≠ start + 1) ∧
      ((∀ i ∈ slots, ∃ v, s.words[i]? = some (.value v)) → ∀ {m : Type → Type} [Monad m] [LawfulMonad m]
        [MonadLiftT (Except Violation) m] [LawfulMonadLiftT (Except Violation) m] (visitor : Value → m Value),
        loose.traverse visitor = (fun values => { loose with words := overwrite loose.words slots values }) <$>
          (valuesAt s.words slots).mapM visitor) ∧
      ∀ target, (∃ t, loose.recook target = .ok t ∧ t.height = s.height ∧ s.CookedAs t target top rest) ∧
        ∀ buffer : Stack, s.height ≤ buffer.height → ∃ copied t, buffer.copyContents loose = .ok copied ∧
          copied.recook target = .ok t ∧ t.height = buffer.height ∧ s.CookedAs t target top rest := by
  have size : (s.withOffsets top rest).words.size = s.height := size_onLinks _ _ _
  obtain ⟨slots, isLive, distinct, exactly⟩ := liveSlots_chained (s := s.withOffsets top rest)
    ⟨chained.status, rfl, rfl, chained.chain.map (fun _ => rfl) rfl
      fun start member => getElem?_onLinks_link member _ _, chained.inside.trans size.ge⟩
  have same : ∀ i ∈ slots, (s.withOffsets top rest).words[i]? = s.words[i]? := fun i member =>
    getElem?_onLinks_other (fun start isStart => (((exactly i).mp member).2 start isStart).2) _ _
  refine ⟨_, slots, uncook_chained chained, isLive, distinct, exactly, fun values => ?_,
    fun target => ⟨?_, fun buffer higher => ?_⟩⟩
  · intro m _ _ _ _ visitor
    have visited : valuesAt (s.withOffsets top rest).words slots = valuesAt s.words slots :=
      List.filterMap_congr fun i member => by rw [same i member]
    rw [traverse_eq visitor ⟨slots, isLive, distinct, fun i member => same i member ▸ values i member⟩]
    simp only [refill, Stack.visited, isLive, visited]
  · obtain ⟨t, cooked, height_eq, cookedAs⟩ := recook_copy chained size.ge (fun _ _ => rfl) target
    exact ⟨t, cooked, height_eq.trans size, cookedAs⟩
  · obtain ⟨linked | low, -⟩ | ⟨-, words, copied, size', same'⟩ :=
      copyContents_cases buffer (s.withOffsets top rest)
    · cases linked
    · exact absurd higher (Nat.not_le.mpr (low.trans_le size.le))
    · obtain ⟨t, cooked, height_eq, cookedAs⟩ := recook_copy chained (higher.trans size'.ge) (fun i low =>
        same' i (low.trans_le size.ge)) target
      exact ⟨_, t, copied, cooked, height_eq.trans size', cookedAs⟩

end Chained

/-- Three frames, of which the middle one has an operand that looks like a link, and a word above
them. -/
def threeFrames : Stack :=
  { words := #[.value (.int 0), .link .bottom, .value (.int 7), .value (.int 1), .link (.address ⟨9⟩ 0),
      .value (.int 8), .link (.offset 4), .value (.int 5), .link (.address ⟨9⟩ 3), .value (.int 8),
      .link (.address ⟨9⟩ 6)]
    top := .address ⟨9⟩ 7, marker := some 6, status := .parked, mode := .linked }

theorem cooks_anywhere_threeFrames :
    ∃ loose slots t, threeFrames.uncook ⟨9⟩ = .ok loose ∧ loose.liveSlots = .ok slots ∧
      (∀ i, i ∈ slots ↔ i < 10 ∧ ∀ start ∈ [7, 3, 0], i ≠ start ∧ i ≠ start + 1) ∧
      loose.recook ⟨4⟩ = .ok t ∧ threeFrames.CookedAs t ⟨4⟩ 7 [3, 0] := by
  have chain : Chain threeFrames.words (.address ⟨9⟩) 7 [3, 0] :=
    .frame rfl (by decide) (.frame rfl (by decide) (.bottom rfl))
  obtain ⟨loose, slots, uncooked, isLive, -, visited, -, anywhere⟩ :=
    cooks_anywhere ⟨rfl, rfl, rfl, chain, by decide⟩
  obtain ⟨t, cooked, -, cookedAs⟩ := (anywhere ⟨4⟩).1
  exact ⟨loose, slots, t, uncooked, isLive, visited, cooked, cookedAs⟩

theorem onLinks_eq {limit : Nat} {f : Link → Link} (low : ∀ start ∈ starts, start + 1 < limit)
    (values : ∀ i < limit, (∀ start ∈ starts, i ≠ start + 1) → ∃ v, words[i]? = some (.value v)) :
    onLinks starts f words = mapBelow limit (Slot.mapLink f) words := by
  apply Array.ext_getElem?
  intro i
  rw [getElem?_mapBelow]
  by_cases isLink : ∃ start ∈ starts, i = start + 1
  · obtain ⟨start, member, rfl⟩ := isLink
    simp [getElem?_onLinks_link member, low start member]
  · have apart : ∀ start ∈ starts, i ≠ start + 1 := by simpa using isLink
    rw [getElem?_onLinks_other apart]
    by_cases inside : i < limit
    · obtain ⟨v, found⟩ := values i inside apart
      simp [found]
    · simp [inside]

/-- Uncooking a parked stack turns its links into offsets and does nothing else. -/
theorem uncook_parked (parked : s.ParkedAt home top) : s.uncook home = .ok (s.loosened top) := by
  obtain ⟨rest, chain, -, values⟩ := parked.frames.chain
  have low := chain.le_top
  rw [uncook_chained ⟨parked.status, parked.mode, parked.top_eq, chain, parked.frames.limit_le_size⟩,
    withOffsets, onLinks_eq (fun start member => by have := low start member; omega) values]
  rfl

theorem loosened_loose (parked : s.ParkedAt home top) : (s.loosened top).LooseAt top where
  status := parked.status
  mode := rfl
  top_eq := rfl
  frames := parked.frames.map (f := Link.loosen) (g := id) (fun _ => rfl) rfl (fun _ => rfl) (by
    intro i inside
    simp only [loosened, getElem?_mapBelow, inside, if_true]
    congr 1
    funext slot
    cases slot <;> rfl)

/-- Cooking a loose stack turns its links into addresses and does nothing else. -/
theorem recook_loose (loose : s.LooseAt top) : s.recook home = .ok (s.tightened home top) := by
  obtain ⟨rest, chain, -, values⟩ := loose.frames.chain
  have low := chain.le_top
  rw [recook_chained ⟨loose.status, loose.mode, loose.top_eq, chain, loose.frames.limit_le_size⟩,
    withAddresses, onLinks_eq (fun start member => by have := low start member; omega) values]
  rfl

section Moving

variable {g : Value → Value}

theorem LooseAt.liveSlots_ok (loose : s.LooseAt top) :
    ∃ slots, s.liveSlots = .ok slots ∧ Visits s.words (top + 3) slots := by
  obtain ⟨rest, chain, counters, values⟩ := loose.frames.chain
  obtain ⟨slots, isLive, distinct, exactly⟩ :=
    liveSlots_chained ⟨loose.status, loose.mode, loose.top_eq, chain, loose.frames.limit_le_size⟩
  refine ⟨slots, isLive, distinct, fun i member => ?_, fun i v low found => ?_⟩
  · obtain ⟨low, apart⟩ := (exactly i).mp member
    exact ⟨low, values i low fun start isStart => (apart start isStart).2⟩
  · by_contra neither
    rw [not_or, exactly] at neither
    refine neither.1 ⟨low, fun start isStart => ⟨?_, ?_⟩⟩
    · rintro rfl
      obtain ⟨pc, isCounter⟩ := counters i isStart
      cases found.symm.trans isCounter
      exact neither.2 ⟨pc, rfl⟩
    · rintro rfl
      obtain ⟨l, isLink⟩ := chain.linked start isStart
      cases found.symm.trans isLink

theorem LooseAt.visitable (loose : s.LooseAt top) : s.Visitable := by
  obtain ⟨slots, isLive, visits⟩ := loose.liveSlots_ok
  exact ⟨slots, isLive, visits.distinct, fun i member => (visits.value i member).2⟩

theorem getElem?_overwrite {offsets : List Nat} (distinct : offsets.Nodup)
    (values : ∀ i ∈ offsets, ∃ v, words[i]? = some (.value v)) (i : Nat) :
    (overwrite words offsets ((valuesAt words offsets).map g))[i]? =
      if i ∈ offsets then words[i]?.map (Slot.mapValue g) else words[i]? := by
  induction offsets generalizing words with
  | nil => simp [overwrite]
  | cons offset offsets ih =>
    obtain ⟨apart, distinct⟩ := List.nodup_cons.mp distinct
    obtain ⟨v, found⟩ := values offset List.mem_cons_self
    have visits : valuesAt words (offset :: offsets) = v :: valuesAt words offsets := by
      simp [valuesAt, found, Slot.asValue?]
    have others : ∀ i, i ≠ offset → (words.setIfInBounds offset (.value (g v)))[i]? = words[i]? := by
      intro i differs
      rw [Array.getElem?_setIfInBounds_ne differs.symm]
    rw [visits, List.map_cons, overwrite, ← valuesAt_setIfInBounds apart, ih distinct]
    · by_cases here : i = offset
      · subst here
        have inside := (Array.getElem?_eq_some_iff.mp found).1
        rw [if_neg apart, if_pos List.mem_cons_self, found, Array.getElem?_setIfInBounds_self_of_lt inside]
        rfl
      · simp [here, others i here]
    · intro j member
      rw [others j (by rintro rfl; exact apart member)]
      exact values j (List.mem_cons_of_mem _ member)

/-- Sending the visited values through `g` is sending all values of the chain through it. -/
theorem LooseAt.refill_visited (loose : s.LooseAt top) (counters : ∀ n, g (.int n) = .int n) :
    s.refill (s.visited.map g) = s.mapValues top g := by
  obtain ⟨slots, isLive, visits⟩ := loose.liveSlots_ok
  simp only [refill, visited, isLive, mapValues]
  congr 1
  apply Array.ext_getElem?
  intro i
  rw [getElem?_mapBelow, getElem?_overwrite visits.distinct fun i member => (visits.value i member).2]
  by_cases live : i ∈ slots
  · simp [live, (visits.value i live).1]
  · -- what is not visited holds a link or a program counter, and both stay
    cases found : s.words[i]? with
    | none => simp
    | some slot =>
      by_cases low : i < top + 3
      · cases slot with
        | link l => simp [live]
        | value v =>
          obtain isLive | ⟨n, rfl⟩ := visits.complete i v low found
          · exact absurd isLive live
          · simp [live, counters]
      · simp [live, low]

/-- The values that the frames of a parked stack hold, program counters included. -/
def held (s : Stack) : List Value :=
  match s.status, s.top with
  | .parked, .address _ top => (s.words.toList.take (top + 3)).filterMap Slot.value?
  | _, _ => []

/-- The stack after a move to `home`: its links lead into the buffer at its new place, and its
frames hold what they held. Nothing else changes. -/
def relocated (place : Ref → Ref) (home : Ref) (s : Stack) : Stack :=
  match s.status, s.top with
  | .parked, .address _ top =>
    { s with words := mapBelow (top + 3) (Slot.move place home) s.words
             top := .address home top
             mode := .linked }
  | _, _ => { s with mode := .linked }

@[simp] theorem height_relocated (place : Ref → Ref) (home : Ref) (s : Stack) :
    (s.relocated place home).height = s.height := by
  unfold relocated
  split <;> simp [height]

/-- A stack that moves does not ask where objects go that it does not hold. -/
theorem relocated_congr {f g : Ref → Ref} (same : ∀ r, .object r ∈ s.held → f r = g r)
    (home : Ref) : s.relocated f home = s.relocated g home := by
  unfold relocated
  unfold held at same
  split
  · rename_i at_ top isParked isTop
    simp only [isParked, isTop] at same
    congr 1
    apply Array.ext_getElem?
    intro i
    rw [getElem?_mapBelow, getElem?_mapBelow]
    cases found : s.words[i]? with
    | none => rfl
    | some slot =>
      by_cases low : i < top + 3
      · cases slot with
        | link l => simp [Slot.move]
        | value v =>
          have moved : v.move f = v.move g := by
            apply Value.move_congr
            rintro r rfl
            apply same r
            refine List.mem_filterMap.mpr ⟨.value (.object r), ?_, rfl⟩
            exact List.mem_iff_getElem?.mpr ⟨i, by simp [low, found]⟩
          simp [Slot.move, moved]
      · simp [low]
  · rfl

theorem mem_visited_loosened (parked : s.ParkedAt home top) (r : Ref) :
    .object r ∈ (s.loosened top).visited ↔ .object r ∈ s.held := by
  obtain ⟨slots, isLive, visits⟩ := (loosened_loose parked).liveSlots_ok
  have same : ∀ i v, i < top + 3 →
      ((s.loosened top).words[i]? = some (.value v) ↔ s.words[i]? = some (.value v)) := by
    intro i v low
    simp only [loosened, getElem?_mapBelow, low, if_true]
    cases s.words[i]? with
    | none => simp
    | some slot => cases slot <;> simp
  simp only [visited, isLive, valuesAt, held, parked.status, parked.top_eq, List.mem_filterMap]
  constructor
  · rintro ⟨i, member, found⟩
    obtain ⟨low, v, isValue⟩ := visits.value i member
    obtain rfl : v = .object r := by simpa [isValue, Slot.asValue?] using found
    refine ⟨.value (.object r), ?_, rfl⟩
    rw [List.mem_iff_getElem?]
    refine ⟨i, ?_⟩
    rw [List.getElem?_take_of_lt low, Array.getElem?_toList]
    exact (same i _ low).mp isValue
  · rintro ⟨slot, member, holds⟩
    obtain ⟨i, found⟩ := List.mem_iff_getElem?.mp member
    obtain ⟨low, found⟩ : i < top + 3 ∧ s.words[i]? = some slot := by
      simpa [List.getElem?_take] using found
    cases slot with
    | link l => cases holds
    | value v =>
      cases holds
      have isValue := (same i _ low).mpr found
      refine ⟨i, ?_, by simp [isValue, Slot.asValue?]⟩
      obtain live | ⟨n, absurd⟩ := visits.complete i _ low isValue
      · exact live
      · cases absurd

/-- Visiting a parked stack on the way and cooking it at `place` moves it. -/
theorem recook_visited (parked : s.ParkedAt home top) (place : Ref → Ref) (target : Ref) :
    ((s.loosened top).refill ((s.loosened top).visited.map (Value.move place))).recook target =
      .ok (s.relocated place target) := by
  have loose := loosened_loose parked
  have moved : ((s.loosened top).mapValues top (Value.move place)).LooseAt top :=
    { status := loose.status
      mode := loose.mode
      top_eq := loose.top_eq
      frames := loose.frames.map (f := id) (g := Value.move place) (fun _ => rfl) rfl (fun _ => rfl) (by
          intro i inside
          simp only [mapValues, getElem?_mapBelow, inside, if_true]
          congr 1
          funext slot
          cases slot <;> rfl) }
  rw [loose.refill_visited fun _ => rfl, recook_loose moved]
  simp only [relocated, parked.status, parked.top_eq, tightened, mapValues, loosened, mapBelow_mapBelow]
  congr 3
  funext slot
  cases slot with
  | value v => rfl
  | link l => cases l <;> rfl

end Moving

end Stack

end ObjectMachine
