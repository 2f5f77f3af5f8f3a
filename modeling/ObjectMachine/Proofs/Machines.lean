/-
# ObjectMachine.Proofs.Machines -- what holds of every machine

`Machine.Sound busy m` says what holds of a machine whose `busy` stacks are left out, and
`Machine.Idle m` what holds when no stack is. Work that collects and tries again keeps an idle
machine idle, however it ends: making a lambda from an assembly, having one compiled, and all
constructors.

* `Machine.ends_retrying` -- one rule for everything that is tried again after a collection.
* `Machine.ends_compile`, `Machine.ends_assemble` -- lambdas get disciplined code only.
-/
import Mathlib
import ObjectMachine.Proofs.Moving

namespace ObjectMachine

open ObjectMachine.Action (Ends ends_bind)
open Heap (view?_eq_some)
open References (push scopedCount)

/-- Code that is disciplined together with its pool of constants, if it can be stored at all. -/
def Heap.Fits (h : Heap) (units : Array UInt16) (pool : Array Value) (maxHeight : Nat) : Prop :=
  units.size < Size.limit → Disciplined units (h.fieldCountsIn pool) maxHeight

theorem Heap.Fits.evolve {h h' : Heap} {loose : Ref → Prop} {units : Array UInt16}
    {pool : Array Value} {maxHeight : Nat} (fits : h.Fits units pool maxHeight)
    (evolves : h.Evolves loose h') : h'.Fits units pool maxHeight :=
  fun short => (fits short).mono (evolves.fieldCountsIn pool)

theorem Heap.Carried.fits {h h' : Heap} {outside : Roots × References} {place : Ref → Ref}
    (carried : h.Carried outside place h') {units : Array UInt16} {pool : Array Value}
    {maxHeight : Nat} (fits : h.Fits units pool maxHeight) (live : ∀ v ∈ pool, h.Live outside v) :
    h'.Fits units (pool.map (Value.move place)) maxHeight :=
  fun short => (fits short).mono (carried.fieldCountsIn live)

/-- A compiler that only makes objects, and whose code is disciplined. -/
def Compiler.Lawful (compiler : Compiler) : Prop :=
  ∀ (busy : Ref → Prop) (v : Value) (s : Store), s.Sound busy → Ends (compiler v) s
      (fun assembly s' => s.Grown busy s' ∧ s'.heap.Fits assembly.units assembly.constants assembly.maxHeight)
      fun _ s' => s.Grown busy s'

/-- The constants with the ordinals by which they are told apart. -/
def Roots.constants (r : Roots) : List (Ref × Nat) :=
  [(r.void, voidOrdinal), (r.null, nullOrdinal), (r.yes, trueOrdinal), (r.no, falseOrdinal)]

theorem Roots.constants_move (r : Roots) (place : Ref → Ref) :
    (r.move place).constants = r.constants.map fun c => (place c.1, c.2) := rfl

theorem Roots.constants_mem_refs {r : Roots} {c : Ref × Nat} (isConstant : c ∈ r.constants) :
    c.1 ∈ r.refs := by
  refine List.mem_append_right _ ?_
  simp only [constants, List.mem_cons, List.not_mem_nil, or_false] at isConstant
  rcases isConstant with rfl | rfl | rfl | rfl <;> simp [others]

namespace Store

variable {s s' : Store} {kept : Ref → Prop} {place : Ref → Ref}

/-- Each constant is the singleton of its ordinal. -/
def Named (s : Store) : Prop :=
  ∀ c ∈ s.roots.constants, s.heap.view? Singleton (.object c.1) = some ⟨c.2⟩

/-- What is kept is in `s'`: each object but a stack where `place` says and with everything that it
holds moved along, and the roots lead where they led. -/
structure Takes (s : Store) (kept : Ref → Prop) (place : Ref → Ref) (s' : Store) : Prop where
  body : ∀ v b, v.Kept kept → s.heap.bodyOf? v = some b → b.kind ≠ .stack →
    s'.heap.bodyOf? (v.move place) = some (b.mapFields (Value.move place)) ∧ ∀ w ∈ b.fields, w.Kept kept
  roots : s'.roots = s.roots.move place

theorem Takes.named (takes : s.Takes kept place s') (rootsKept : ∀ r ∈ s.roots.refs, kept r)
    (named : s.Named) : s'.Named := by
  rw [Named, takes.roots, Roots.constants_move]
  refine List.forall_mem_map.mpr fun c isConstant => Heap.view?_eq_some.mpr ?_
  refine (takes.body (.object c.1) _ ?_ (Heap.view?_eq_some.mp (named c isConstant)) nofun).1
  rintro _ ⟨⟩
  exact rootsKept _ (Roots.constants_mem_refs isConstant)

end Store

namespace Machine

theorem Carried.takes {m m' : Machine} {place : Ref → Ref} (carried : m.Carried place m') :
    m.store.Takes (m.store.heap.Reachable (StartsAt m.outside)) place m'.store where
  body v b live found noStack := by
    obtain ⟨r, rfl, found'⟩ := carried.heap.body live found
    refine ⟨by rw [found', Body.relocated_of_ne noStack], ?_⟩
    obtain ⟨_, o, ⟨⟩, isObject, rfl⟩ := Heap.bodyOf?_eq_some.mp found
    rintro _ member q rfl
    exact .edge (live r rfl) isObject (.inr (by rwa [Body.held_of_ne noStack]))
  roots := carried.roots

variable {loose : Ref → Prop} {l : Lambda}

/-- What holds of every machine, stacks that are `busy` left out. -/
structure Sound (busy : Ref → Prop) (m : Machine) : Prop where
  store : m.store.Sound busy
  named : m.store.Named
  bottom : m.store.heap.is Lambda (.object m.store.roots.emptyLambda) = true
  registered : m.references.WellRegistered
  compiler : ∀ compiler, m.compiler = some compiler → Compiler.Lawful compiler

/-- What holds of every machine that runs nothing. -/
def Idle (m : Machine) : Prop := m.Sound fun _ => False

variable {ε α : Type} {busy busy' : Ref → Prop} {m m' : Machine} {place : Ref → Ref}

section

variable (sound : m.Sound busy)
include sound

theorem Sound.mono (le : ∀ r, busy r → busy' r) : m.Sound busy' :=
  { sound with store := ⟨sound.store.heap.mono le, sound.store.layouts⟩ }

/-- A stack that has come to rest is not busy any more. -/
theorem Sound.settle
    (settled : ∀ r s, busy r → ¬ busy' r → m.store.heap.bodyOf? (.object r) = some (.stack s) →
      m.store.heap.AtRest r s) : m.Sound busy' :=
  { sound with store := ⟨sound.store.heap.settle settled, sound.store.layouts⟩ }

/-- Whatever happens to references, outputs and records is of no account, as long as the registry is
in order. -/
theorem Sound.withReferences (store : m'.store = m.store) (compiler : m'.compiler = m.compiler)
    (registered : m'.references.WellRegistered) : m'.Sound busy :=
  ⟨store ▸ sound.store, store ▸ sound.named, store ▸ sound.bottom, registered, compiler ▸ sound.compiler⟩

theorem Sound.evolve (evolves : m.store.heap.Evolves loose m'.store.heap)
    (roots : m'.store.roots = m.store.roots) (store : m'.store.Sound busy')
    (references : m'.references = m.references) (compiler : m'.compiler = m.compiler) :
    m'.Sound busy' where
  store := store
  named := by
    rw [Store.Named, roots]
    exact fun c isConstant => evolves.view_fixed (by decide) (sound.named c isConstant)
  bottom := by rw [roots]; exact evolves.is_lambda sound.bottom
  registered := references ▸ sound.registered
  compiler := compiler ▸ sound.compiler

theorem Sound.withHeap {heap : Heap} (evolves : m.store.heap.Evolves loose heap)
    (heapSound : heap.Sound busy') : (m.withHeap heap).Sound busy' := by
  refine sound.evolve evolves rfl ⟨heapSound, fun kind => ?_⟩ rfl rfl
  obtain ⟨l, found, isKind⟩ := sound.store.layouts kind
  obtain ⟨l', found', kind', -⟩ := evolves.view_layout found
  exact ⟨l', found', kind'.trans isKind⟩

theorem Sound.grown (grown : m.Grown busy m') : m'.Sound busy :=
  sound.evolve grown.store.evolves grown.store.roots grown.store.sound grown.references grown.compiler

theorem Sound.carried (carried : m.Carried place m') : m'.Sound fun r' =>
      ∃ r, busy r ∧ m.store.heap.Reachable (StartsAt m.outside) r ∧ place r = r' where
  store := carried.sound sound.store
  named := carried.takes.named (fun _ isRoot => .root (.inl isRoot)) sound.named
  bottom := by
    have live : m.store.heap.Live m.outside (.object m.store.roots.emptyLambda) := by
      rintro _ ⟨⟩
      exact .root (.inl (by simp [outside, Roots.refs, Roots.others]))
    rw [carried.roots]
    exact carried.heap.is_lambda live sound.bottom
  registered := carried.references ▸ sound.registered.move
  compiler := carried.compiler ▸ sound.compiler

end

theorem Idle.grown (idle : m.Idle) (grown : m.Grown (fun _ => False) m') : m'.Idle := Sound.grown idle grown

theorem Idle.carried (idle : m.Idle) (carried : m.Carried place m') : m'.Idle :=
  (Sound.carried idle carried).mono fun _ ⟨_, absurd, _⟩ => absurd

theorem Idle.collectable (idle : m.Idle) (start : Ref → Prop) : m.store.heap.Collectable start :=
  idle.store.heap.collectable start fun _ _ absurd => absurd.elim

theorem Idle.withLog (idle : m.Idle) (log : Log) : Idle { m with log } :=
  idle.withReferences rfl rfl idle.registered

theorem Idle.push (idle : m.Idle) (v : Value) : Idle { m with references := m.references.push v } :=
  idle.withReferences rfl rfl idle.registered

section Rules

variable {answered : α → Machine → Prop}
variable {raised : ε → Machine → Prop}

/-- Work that is tried again after a collection. `fact` is what the work relies on beside an idle
machine: it has to survive a failed attempt and a collection. -/
theorem ends_retrying {work : Op Signal α} (fact : Machine → Prop) (idle : m.Idle) (holds : fact m)
    (stable : ∀ m m', m.Idle → fact m → m.Grown (fun _ => False) m' → fact m')
    (carries : ∀ m place m', fact m → m.Carried place m' → fact m')
    (works : ∀ m, m.Idle → fact m → Ends work m answered fun _ m' => m.Grown (fun _ => False) m') :
    Ends (retrying work) m answered fun _ m' => m'.Idle ∧ fact m' := by
  have first := works m idle holds
  unfold Ends retrying
  unfold Ends at first
  cases attempt : work m with
  | ok answer m' => rw [attempt] at first; exact first
  | error stop m' =>
    rw [attempt] at first
    cases stop with
    | broken violation => exact first
    | unfinished => exact first
    | raised signal =>
      have idle' : m'.Idle := idle.grown first
      have holds' := stable m m' idle holds first
      cases signal with
      | allocationFailed size =>
        -- the work has failed for lack of room, so the machine collects and the work is done again
        change Ends (report .debug _ >>= fun _ => collect size >>= fun _ => _) m' _ _
        rw [ends_bind, ends_report, ends_bind]
        generalize m'.log.add .debug _ = log
        have reported := idle'.withLog log
        refine (ends_collect size reported.registered (reported.collectable _)).mono ?_
          fun _ _ absurd => absurd.elim
        rintro - after ⟨place, carried⟩
        rw [Action.ends_mapError]
        have idle'' := reported.carried carried
        have holds'' : fact after := carries _ place after (stable m' { m' with log } idle' holds'
          ⟨.refl idle'.store, rfl, rfl, rfl⟩) carried
        exact (works after idle'' holds'').mono (fun _ _ done => done)
          fun _ m'' grown => ⟨idle''.grown grown, stable after m'' idle'' holds'' grown⟩
      | _ => exact ⟨idle', holds'⟩

/-- Work on the store alone that is tried again after a collection. -/
theorem ends_retrying_onStore {work : Alloc α}
    {post : α → Store → Prop} (fact : Machine → Prop) (idle : m.Idle) (holds : fact m)
    (stable : ∀ m m', m.Idle → fact m → m.Grown (fun _ => False) m' → fact m')
    (carries : ∀ m place m', fact m → m.Carried place m' → fact m')
    (keeps : ∀ s, Store.Keeps (fun _ => False) work s post) :
    Ends (retrying (onStore work)) m (fun answer m' => m'.Idle ∧ fact m' ∧
      post answer m'.store) fun _ m' => m'.Idle ∧ fact m' := by
  refine ends_retrying fact idle holds stable carries fun m idle holds => ?_
  refine (keeps_onStore (keeps m.store) idle.store).mono ?_ fun _ _ ⟨grown, _⟩ => grown
  rintro answer m' ⟨grown, done⟩
  exact ⟨idle.grown grown, stable m m' idle holds grown, done⟩

/-- The machine after a scope with the first slot `start` has been left. -/
def left (m : Machine) (start : Nat) : Machine := { m with references := m.references.leave start }

theorem Idle.left (idle : m.Idle) (start : Nat) : (m.left start).Idle :=
  idle.withReferences rfl rfl idle.registered

theorem ends_inScope {work : Op ε α}
    (ends : Ends work m (fun answer m' => answered answer (m'.left m.references.scopedCount))
      fun cause m' => raised cause (m'.left m.references.scopedCount)) :
    Ends (inScope work) m answered raised := by
  unfold Ends at ends ⊢
  unfold inScope
  cases result : work m with
  | ok answer m' => rw [result] at ends; exact ends
  | error stop m' =>
    rw [result] at ends
    cases stop <;> exact ends

/-- Work that keeps a machine idle does so in a scope of its own, too. -/
theorem ends_inScope_idle {work : Op ε α} (ends : Ends work m (fun _ m' => m'.Idle)
    fun _ m' => m'.Idle) : Ends (inScope work) m (fun _ m' => m'.Idle) fun _ m' => m'.Idle :=
  ends_inScope (ends.mono (fun _ _ idle => idle.left _) fun _ _ idle => idle.left _)

/-- The machine after slots have been taken for values. -/
def rooted (m : Machine) (values : List Value) : Machine :=
  { m with references := { m.references with slots := m.references.slots ++ values.toArray } }

/-- The slots that are taken next. -/
def freeSlots (m : Machine) (count : Nat) : List Nat := List.range' m.references.scopedCount count

theorem Idle.rooted (idle : m.Idle) (values : List Value) : (m.rooted values).Idle :=
  idle.withReferences rfl rfl idle.registered

theorem slots_rooted (values : List Value) :
    (m.freeSlots values.length).map (m.rooted values).references.slot = values := by
  apply List.ext_getElem?
  intro i
  simp only [List.getElem?_map, freeSlots]
  by_cases low : i < values.length
  · rw [List.getElem?_range' low]
    simp [References.slot, rooted, scopedCount, low]
  · simp [low]

@[simp] theorem ends_rootAll {values : List Value} {done : List Nat → Machine → Prop} :
    Ends (rootAll values) m done raised ↔ done (m.freeSlots values.length) (m.rooted values) := by
  induction values generalizing m done with
  | nil =>
    have same : m.rooted [] = m := by simp [rooted]
    rw [same]
    exact Iff.rfl
  | cons v values ih =>
    change Ends (List.mapM root (v :: values)) m _ _ ↔ _
    have same : ({ m with references := m.references.push v } : Machine).rooted values =
        m.rooted (v :: values) := by simp [rooted, push]
    have indices : m.references.scopedCount ::
        ({ m with references := m.references.push v } : Machine).freeSlots values.length =
        m.freeSlots (v :: values).length := by
      simp [freeSlots, push, scopedCount, List.range'_succ]
    rw [List.mapM_cons, ends_bind, ends_root, ends_bind]
    change Ends (rootAll values) _ _ _ ↔ _
    rw [ih, same, ← indices]
    rfl

@[simp] theorem ends_slots {indices : List Nat} {done : Array Value → Machine → Prop} :
    Ends (slots indices) m done raised ↔ done (indices.map m.references.slot).toArray m := by
  have reads : ∀ done : List Value → Machine → Prop, Ends (indices.mapM slot) m done raised ↔
      done (indices.map m.references.slot) m := by
    induction indices with
    | nil => exact fun _ => Iff.rfl
    | cons index indices ih =>
      intro done
      rw [List.mapM_cons, ends_bind, slot, ends_ask, ends_bind, ih]
      rfl
  unfold slots
  rw [ends_bind, reads]
  rfl

end Rules

section Code

variable {units : Array UInt16} {maxHeight : Nat} {indices : List Nat}

/-- Code fits the constants in some slots. -/
def FitsSlots (m : Machine) (units : Array UInt16) (indices : List Nat) (maxHeight : Nat) : Prop :=
  m.store.heap.Fits units (indices.map m.references.slot).toArray maxHeight

theorem FitsSlots.grown (fits : m.FitsSlots units indices maxHeight)
    (grown : m.Grown busy m') : m'.FitsSlots units indices maxHeight := by
  unfold FitsSlots
  rw [grown.references]
  exact Heap.Fits.evolve fits grown.store.evolves

theorem FitsSlots.carried (fits : m.FitsSlots units indices maxHeight)
    (carried : m.Carried place m') : m'.FitsSlots units indices maxHeight := by
  have live : ∀ v ∈ (indices.map m.references.slot).toArray, m.store.heap.Live m.outside v := by
    intro v member
    obtain ⟨index, -, rfl⟩ := List.mem_map.mp (List.mem_toArray.mp member)
    exact Carried.live_slot index
  have slots : (indices.map m'.references.slot).toArray =
      (indices.map m.references.slot).toArray.map (Value.move place) := by
    simp [carried.slot, Function.comp_def]
  unfold FitsSlots
  rw [slots]
  exact carried.heap.fits fits live

/-- A lambda whose code and constants have just been made. -/
theorem lambdaSound_of_made {h : Heap}
    {pool : Array Value} (code : h.view? Code l.code = some ⟨units⟩)
    (constants : h.view? Tuple l.constants = some ⟨pool⟩) (fits : h.Fits units pool l.maxHeight)
    (short : units.size < Size.limit) : h.LambdaSound l where
  current := by
    intro r isCode
    obtain ⟨q, o, isRef, found, -⟩ := Heap.view?_iff.mp code
    cases isCode.symm.trans isRef
    exact ⟨o, found⟩
  disciplined := by
    intro c isCode
    cases code.symm.trans isCode
    have known : h.fieldCounts l.constants = h.fieldCountsIn pool := by
      funext index
      simp [Heap.fieldCounts, constants]
    rw [known]
    exact fits short

theorem ends_assembly {next : Value → Value → Op Signal α}
    {answered : α → Machine → Prop} {raised : Signal → Machine → Prop} (sound : m.store.Sound busy)
    (fits : m.FitsSlots units indices maxHeight) (rest : ∀ code constants m', m.Grown busy m' →
      (∀ l : Lambda, l.code = code → l.constants = constants → l.maxHeight = maxHeight →
        m'.store.heap.LambdaSound l) → Ends (next code constants) m' answered raised)
    (onRaise : ∀ signal m', m.Grown busy m' → raised signal m') : Ends (do
      let code ← onStore (Make.code units)
      let constants ← onStore (Make.tuple (indices.map m.references.slot).toArray)
      next code constants) m answered raised := by
  rw [ends_bind]
  refine (keeps_onStore (Make.keeps_code units) sound).mono ?_ fun _ _ ⟨grown, _⟩ =>
    onRaise _ _ grown
  rintro code m' ⟨grown, madeCode, short⟩
  rw [ends_bind]
  refine (keeps_onStore (Make.keeps_tuple _) grown.store.sound).mono ?_ fun _ _ ⟨grown', _⟩ =>
    onRaise _ _ (grown.trans grown')
  rintro constants m'' ⟨grown', madePool⟩
  refine rest code constants m'' (grown.trans grown') ?_
  rintro l rfl rfl rfl
  have fits'' := (fits.grown grown).grown grown'
  unfold FitsSlots at fits''
  rw [grown'.references, grown.references] at fits''
  exact lambdaSound_of_made (grown'.store.evolves.view_fixed (by decide) (view?_eq_some.mpr madeCode.bodyOf?))
    (view?_eq_some.mpr madePool.bodyOf?) fits'' short

theorem fitsSlots_rooted {pool : Array Value} (fits : m.store.heap.Fits units pool maxHeight) :
    (m.rooted pool.toList).FitsSlots units (m.freeSlots pool.toList.length) maxHeight := by
  unfold FitsSlots
  rw [slots_rooted]
  exact fits

/-- An assembly that fits its constants becomes a lambda. -/
theorem ends_assemble {assembly : Assembly} {argc : Nat} (idle : m.Idle)
    (fits : m.store.heap.Fits assembly.units assembly.constants assembly.maxHeight) :
    Ends (assemble assembly argc) m (fun _ m' => m'.Idle) fun _ m' => m'.Idle := by
  refine ends_inScope_idle ?_
  rw [ends_bind, ends_rootAll]
  refine (ends_retrying (fun m => m.FitsSlots _ _ _) (idle.rooted _) (fitsSlots_rooted fits)
    (fun _ _ _ fits => fits.grown) (fun _ _ _ fits => fits.carried) fun m idle fits => ?_).mono
    (fun _ _ idle => idle) fun _ _ ⟨idle, _⟩ => idle
  rw [ends_bind, ends_slots, ends_bind, ends_ask]
  refine ends_assembly idle.store fits (fun code constants m' grown sound => ?_) fun _ _ grown => grown
  refine (keeps_onStore (Make.keeps_lambda (sound _ rfl rfl rfl)) grown.store.sound).mono ?_ ?_
  · rintro _ m'' ⟨grown', -⟩
    exact idle.grown (grown.trans grown')
  · rintro _ m'' ⟨grown', -⟩
    exact grown.trans grown'

theorem Sound.lambdaSound_of_void (sound : m.Sound busy)
    (isVoid : l.code = .object m.store.roots.void) : m.store.heap.LambdaSound l := by
  obtain ⟨_, o, ⟨⟩, found, isSingleton⟩ := Heap.view?_iff.mp (sound.named (_, _) List.mem_cons_self)
  refine ⟨fun r isCode => ?_, fun c isCode => ?_⟩
  · cases isCode.symm.trans isVoid
    exact ⟨o, found⟩
  · rw [isVoid] at isCode
    obtain ⟨_, o', ⟨⟩, found', isBody⟩ := Heap.view?_iff.mp isCode
    cases found.symm.trans found'
    cases isSingleton.symm.trans isBody

theorem ends_uncompiledLambda {argc : Nat} {source : Value} (idle : m.Idle) :
    Ends (uncompiledLambda argc source) m (fun _ m' => m'.Idle) fun _ m' => m'.Idle := by
  refine ends_inScope_idle ?_
  rw [ends_bind, ends_root]
  refine (ends_retrying (fun _ => True) (idle.push source) trivial
    (fun _ _ _ _ _ => trivial) (fun _ _ _ _ _ => trivial) fun m idle _ => ?_).mono
    (fun _ _ idle => idle) fun _ _ ⟨idle, _⟩ => idle
  rw [ends_bind, slot, ends_ask, ends_bind, ends_ask]
  refine (keeps_onStore (Make.keeps_lambda (idle.lambdaSound_of_void rfl)) idle.store).mono ?_
    fun _ _ ⟨grown, _⟩ => grown
  rintro _ m' ⟨grown, -⟩
  exact idle.grown grown

end Code

section Compiling

variable {index : Nat} {index least : Nat} {lambda index least : Nat} {index : Nat}

/-- The task in a slot has the stack at `home`. -/
def Hosts (m : Machine) (index : Nat) (home : Ref) : Prop :=
  ∃ task t, m.references.slot index = .object task ∧
    m.store.heap.view? Task (.object task) = some t ∧ t.stack = .object home

/-- The task in a slot is parked, with at least `least` operands to go on with. -/
def Waits (m : Machine) (index least : Nat) : Prop :=
  ∃ home s, m.Hosts index home ∧ m.store.heap.bodyOf? (.object home) = some (.stack s) ∧
    m.store.heap.Parked home least s

theorem Hosts.evolve {home : Ref} (hosts : m.Hosts index home)
    (evolves : m.store.heap.Evolves loose m'.store.heap)
    (tight : ∀ r t, m.store.heap.view? Task (.object r) = some t → ¬ loose r)
    (slot : m'.references.slot index = m.references.slot index) : m'.Hosts index home := by
  obtain ⟨task, t, inSlot, isTask, isStack⟩ := hosts
  obtain ⟨t', isTask', same⟩ := evolves.view_task isTask (tight task t isTask)
  exact ⟨task, t', slot.trans inSlot, isTask', same.trans isStack⟩

theorem Waits.evolve (waits : m.Waits index least)
    (evolves : m.store.heap.Evolves loose m'.store.heap)
    (tight : ∀ r t, m.store.heap.view? Task (.object r) = some t → ¬ loose r)
    (onStacks : ∀ r s, m.store.heap.view? Stack (.object r) = some s → ¬ loose r)
    (slot : m'.references.slot index = m.references.slot index) : m'.Waits index least := by
  obtain ⟨home, s, hosts, isStack, parked⟩ := waits
  exact ⟨home, s, hosts.evolve evolves tight slot,
    evolves.stack isStack (onStacks home s (view?_eq_some.mpr isStack)), evolves.parked parked⟩

theorem Waits.grown (waits : m.Waits index least) (grown : m.Grown busy m') :
    m'.Waits index least :=
  waits.evolve grown.store.evolves (fun _ _ _ => id) (fun _ _ _ => id) (by rw [grown.references])

theorem Hosts.live {home : Ref} (hosts : m.Hosts index home) :
    m.store.heap.Reachable (StartsAt m.outside) home := by
  obtain ⟨task, t, inSlot, isTask, isStack⟩ := hosts
  have live := Carried.live_slot (m := m) index
  rw [inSlot] at live
  have held : t.stack ∈ (Body.task t).held := by simp [Body.held, Body.fields]
  exact live.held (view?_eq_some.mp isTask) held home isStack

theorem Hosts.carried {home : Ref} (hosts : m.Hosts index home) (carried : m.Carried place m') :
    m'.Hosts index (place home) := by
  obtain ⟨task, t, inSlot, isTask, isStack⟩ := hosts
  have live := Carried.live_slot (m := m) index
  rw [inSlot] at live
  obtain ⟨t', isTask', same⟩ := carried.heap.view_task live isTask
  exact ⟨place task, t', by rw [carried.slot, inSlot]; rfl, isTask', by rw [same, isStack]; rfl⟩

theorem Waits.carried (waits : m.Waits index least) (carried : m.Carried place m') :
    m'.Waits index least := by
  obtain ⟨home, s, hosts, isStack, parked⟩ := waits
  have live : m.store.heap.Live m.outside (.object home) := by
    rintro _ ⟨⟩
    exact hosts.live
  obtain ⟨_, ⟨⟩, isStack'⟩ := carried.heap.body live isStack
  exact ⟨place home, _, hosts.carried carried, isStack', carried.heap.parked hosts.live isStack parked⟩

/-- A slot holds a lambda that has no code. -/
def Uncompiled (m : Machine) (index : Nat) : Prop :=
  ∃ l, m.store.heap.view? Lambda (m.references.slot index) = some l ∧ ¬ m.store.heap.is Code l.code = true

theorem Uncompiled.grown (uncompiled : m.Uncompiled index) (sound : m.Sound busy)
    (grown : m.Grown busy' m') : m'.Uncompiled index := by
  obtain ⟨l, isLambda, noCode⟩ := uncompiled
  obtain ⟨r, o, isRef, isObject, isBody⟩ := Heap.view?_iff.mp isLambda
  obtain ⟨l', isLambda', same⟩ := grown.store.evolves.view_lambda (isRef ▸ isLambda) id
  have current := ((sound.store.heap.objects r o isObject).lambda l isBody).current
  refine ⟨l', by rw [grown.references, isRef]; exact isLambda', ?_⟩
  rw [same.code, grown.store.evolves.is_code_iff current]
  exact noCode

theorem Uncompiled.carried (uncompiled : m.Uncompiled index) (carried : m.Carried place m') :
    m'.Uncompiled index := by
  obtain ⟨l, isLambda, noCode⟩ := uncompiled
  have live := Carried.live_slot (m := m) index
  obtain ⟨l', isLambda', code, -⟩ := carried.heap.view_lambda live isLambda
  have held : l.code ∈ (Body.lambda l).held := by simp [Body.held, Body.fields]
  refine ⟨l', by rw [carried.slot]; exact isLambda', ?_⟩
  rw [code, carried.heap.is_code_iff (live.held (view?_eq_some.mp isLambda) held)]
  exact noCode

theorem put_code_evolves {h : Heap} {v : Value} {l l' : Lambda} (found : h.view? Lambda v = some l)
    (noCode : ¬ h.is Code l.code = true) : h.Evolves (fun r => v = .object r) (h.put v l') := by
  have isBody := view?_eq_some.mp found
  refine Heap.adjust_evolves (fun b isBody' => ?_) (fun r _ isRef _ tight => absurd isRef tight) ?_
  · cases isBody.symm.trans isBody'
    exact ⟨rfl, rfl, by simp [HeapKind.wrap], by simp [HeapKind.wrap, Body.kind]⟩
  · intro _ isBody' isCode
    cases isBody.symm.trans isBody'
    exact absurd isCode noCode

theorem sound_put_code {h : Heap} {v : Value} {l l' : Lambda}
    (sound : h.Sound busy) (found : h.view? Lambda v = some l) (noCode : ¬ h.is Code l.code = true)
    (new : h.LambdaSound l') : (h.put v l').Sound busy := by
  have isBody := view?_eq_some.mp found
  have evolves : h.Evolves (fun r => v = .object r) (h.put v l') := put_code_evolves found noCode
  refine sound.adjust evolves (fun r s isStack isRef => ?_) (fun b isBody' => ?_) ?_
  · subst isRef
    cases isBody.symm.trans isStack
  · cases isBody.symm.trans isBody'
    exact ⟨rfl, rfl, by simp [HeapKind.wrap], by simp [HeapKind.wrap, Body.kind]⟩
  · intro _ _ _ becomes
    cases becomes
    exact .inr (new.evolve evolves ⟨rfl, rfl, rfl⟩)

theorem slot_lt {r : References} {s : Ref} (found : r.slot index = .object s) :
    index < r.scopedCount := by
  by_contra outside
  simp only [scopedCount, not_lt] at outside
  simp [References.slot, Array.getD_eq_getD_getElem?, outside] at found

theorem slot_rooted (inside : index < m.references.scopedCount) (values : List Value) :
    (m.rooted values).references.slot index = m.references.slot index := by
  simp only [scopedCount] at inside
  simp [rooted, References.slot, Array.getElem?_append_left inside]

theorem slot_push (inside : index < m.references.scopedCount) (v : Value) :
    (m.references.push v).slot index = m.references.slot index := by
  simp only [scopedCount] at inside
  simp [push, References.slot, Array.getElem?_push, inside.ne]

theorem slot_push_last (v : Value) : (m.references.push v).slot m.references.scopedCount = v := by
  simp [push, References.slot, scopedCount]

theorem slot_left {index start : Nat} (inside : index < start) :
    (m.left start).references.slot index = m.references.slot index := by
  have same : (m.references.slots.take start)[index]? = m.references.slots[index]? := by
    rw [← Array.getElem?_toList, ← Array.getElem?_toList]
    simp [inside]
  simp only [left, References.leave, References.slot, Array.getD_eq_getD_getElem?, same]

theorem Waits.inside (waits : m.Waits index least) : index < m.references.scopedCount := by
  obtain ⟨_, _, ⟨_, _, inSlot, -⟩, -⟩ := waits
  exact slot_lt inSlot

theorem Waits.withReferences (waits : m.Waits index least) (heap : m'.store.heap = m.store.heap)
    (slot : m'.references.slot index = m.references.slot index) : m'.Waits index least :=
  waits.evolve (heap ▸ .refl (fun _ => False) _) (fun _ _ _ => id) (fun _ _ _ => id) slot

theorem Uncompiled.inside (uncompiled : m.Uncompiled index) : index < m.references.scopedCount := by
  obtain ⟨l, isLambda, -⟩ := uncompiled
  obtain ⟨r, o, isRef, -⟩ := Heap.view?_iff.mp isLambda
  exact slot_lt isRef

theorem Uncompiled.rooted (uncompiled : m.Uncompiled index) (values : List Value) :
    (m.rooted values).Uncompiled index := by
  unfold Uncompiled
  rw [slot_rooted uncompiled.inside]
  exact uncompiled

theorem Idle.putCode (idle : m.Idle) (uncompiled : m.Uncompiled lambda)
    (waits : m.Waits index least) (new : m.store.heap.LambdaSound l) :
    (m.withHeap (m.store.heap.put (m.references.slot lambda) l)).Idle ∧
      (m.withHeap (m.store.heap.put (m.references.slot lambda) l)).Waits index least := by
  obtain ⟨old, isLambda, noCode⟩ := uncompiled
  have evolves : m.store.heap.Evolves (fun r => m.references.slot lambda = .object r)
      (m.store.heap.put (m.references.slot lambda) l) := put_code_evolves isLambda noCode
  have apart : ∀ r b, m.store.heap.bodyOf? (.object r) = some b → b.kind ≠ .lambda →
      m.references.slot lambda ≠ .object r := by
    intro r b isBody other same
    rw [same] at isLambda
    cases isBody.symm.trans (view?_eq_some.mp isLambda)
    exact other rfl
  refine ⟨idle.withHeap evolves (sound_put_code idle.store.heap isLambda noCode new),
    waits.evolve evolves (fun r t isTask => ?_) (fun r s isStack => ?_) rfl⟩
  · exact apart r _ (view?_eq_some.mp isTask) (by simp [HeapKind.wrap, Body.kind])
  · exact apart r _ (view?_eq_some.mp isStack) (by simp [HeapKind.wrap, Body.kind])

/-- Code that fits its constants is put into the lambda of a slot, which has none. -/
theorem ends_install {assembly : Assembly} (idle : m.Idle)
    (fits : m.store.heap.Fits assembly.units assembly.constants assembly.maxHeight)
    (uncompiled : m.Uncompiled lambda) (waits : m.Waits index least) : Ends (do
      let constants ← rootAll assembly.constants.toList
      retrying (installing assembly lambda constants)) m (fun _ m' => m'.Idle ∧ m'.Waits index least) fun _ m' => m'.Idle ∧ m'.Waits index least := by
  rw [ends_bind, ends_rootAll]
  refine (ends_retrying (fun m => m.FitsSlots assembly.units _ assembly.maxHeight ∧
    m.Uncompiled lambda ∧ m.Waits index least) (idle.rooted _)
    ⟨fitsSlots_rooted fits, uncompiled.rooted _, waits.withReferences rfl (slot_rooted waits.inside _)⟩
    (fun _ _ idle ⟨fits, uncompiled, waits⟩ grown =>
      ⟨fits.grown grown, uncompiled.grown idle grown, waits.grown grown⟩)
    (fun _ _ _ ⟨fits, uncompiled, waits⟩ carried =>
      ⟨fits.carried carried, uncompiled.carried carried, waits.carried carried⟩)
    fun m idle ⟨fits, uncompiled, waits⟩ => ?_).mono (fun _ _ done => done)
    fun _ _ ⟨idle, _, _, waits⟩ => ⟨idle, waits⟩
  unfold installing
  rw [ends_bind, ends_slots]
  refine ends_assembly idle.store fits (fun code constants m' grown sound => ?_) fun _ _ grown => grown
  rw [ends_bind, slot, ends_ask, ends_bind]
  refine ends_check (by simp) fun l _ => ?_
  rw [ends_modifyHeap]
  have idle' : m'.Idle := idle.grown grown
  exact idle'.putCode (uncompiled.grown idle grown) (waits.grown grown) (sound _ rfl rfl rfl)

/-- A lawful compiler answers with code that fits its constants. -/
theorem ends_askCompiler {compiler : Compiler} (lawful : compiler.Lawful)
    (idle : m.Idle) (uncompiled : m.Uncompiled lambda) (waits : m.Waits index least) : Ends (retrying do
        let v ← slot lambda
        onStore (compiler v)) m
      (fun assembly m' => m'.Idle ∧ m'.store.heap.Fits assembly.units assembly.constants assembly.maxHeight ∧
        m'.Uncompiled lambda ∧ m'.Waits index least)
      fun _ m' => m'.Idle ∧ m'.Waits index least := by
  refine (ends_retrying (fun m => m.Uncompiled lambda ∧ m.Waits index least) idle ⟨uncompiled, waits⟩
    (fun _ _ idle ⟨uncompiled, waits⟩ grown => ⟨uncompiled.grown idle grown, waits.grown grown⟩)
    (fun _ _ _ ⟨uncompiled, waits⟩ carried => ⟨uncompiled.carried carried, waits.carried carried⟩)
    fun m idle ⟨uncompiled, waits⟩ => ?_).mono (fun _ _ done => done)
    fun _ _ ⟨idle, _, waits⟩ => ⟨idle, waits⟩
  rw [ends_bind, slot, ends_ask, ends_onStore]
  refine (lawful (fun _ => False) _ m.store idle.store).mono ?_ ?_
  · rintro assembly store ⟨grown, fits⟩
    have grown : m.Grown (fun _ => False) { m with store } := ⟨grown, rfl, rfl, rfl⟩
    exact ⟨idle.grown grown, fits, uncompiled.grown idle grown, waits.grown grown⟩
  · rintro signal store grown
    exact ⟨grown, rfl, rfl, rfl⟩

/-- The compiler is asked for the code of a lambda that has none. A task that waits meanwhile is not
affected. -/
theorem ends_compile {v : Value} (idle : m.Idle) (isLambda : m.store.heap.view? Lambda v = some l)
    (noCode : ¬ m.store.heap.is Code l.code = true) (waits : m.Waits index least) :
    Ends (compile v) m (fun _ m' => m'.Idle ∧ m'.Waits index least) fun _ m' => m'.Idle ∧
      m'.Waits index least := by
  have leave : ∀ after : Machine, after.Idle ∧ after.Waits index least →
      (after.left m.references.scopedCount).Idle ∧ (after.left m.references.scopedCount).Waits index least :=
    fun _ ⟨idle, waits'⟩ => ⟨idle.left _, waits'.withReferences rfl (slot_left waits.inside)⟩
  refine ends_inScope (.mono ?_ (fun _ m' => leave m') fun _ m' => leave m')
  rw [ends_bind, ends_root, ends_bind, ends_ask]
  -- the lambda is in a slot of its own from here on
  have uncompiled : ∀ log, Uncompiled { m with references := m.references.push v, log }
      m.references.scopedCount := fun _ => ⟨l, by rw [slot_push_last]; exact isLambda, noCode⟩
  have waits' : ∀ log, Waits { m with references := m.references.push v, log } index least :=
    fun _ => waits.withReferences rfl (slot_push waits.inside v)
  have idle' := idle.push v
  dsimp only
  split
  · exact ⟨idle', waits' _⟩
  · rename_i compiler isCompiler
    rw [ends_bind]
    refine ends_check (by simp) fun argc _ => ?_
    rw [ends_bind, ends_report, ends_bind]
    refine (ends_askCompiler (idle.compiler compiler isCompiler) (idle'.withLog _) (uncompiled _)
      (waits' _)).imp ?_
    rintro assembly m' ⟨idle', fits, uncompiled, waits⟩
    exact ends_install idle' fits uncompiled waits

end Compiling

end Machine

end ObjectMachine
