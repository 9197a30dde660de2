import Mathlib.Data.Fin.Tuple.Basic
import Mathlib.Data.List.OfFn
import Postform.RttControlBlock
import Postform.RttFifo

/- The constructor of `ControlBlock`, as its stores to the memory. `Header` writes
   the identifier, in two parts, and the numbers of channels; each `Channel` is
   initialized by its member initializers; the body then takes the name, the
   buffer and the size of each channel from its descriptor. It checks first that
   there are as many descriptors as channels.

   `construct_up` is what it leaves in each word of an up channel, whatever was
   there before. -/
namespace Postform.Rtt

open Layout Memory

/-- `ChannelDescriptor`: the address of the name, and the span of the buffer. -/
structure ChannelDescriptor where
  name : Nat
  buffer : Nat
  size : Nat
  name_lt : name < 2 ^ 32
  buffer_lt : buffer < 2 ^ 32
  size_lt : size < 2 ^ 32
  fits : buffer + size ≤ 2 ^ 32

/-- What the descriptor sets. -/
def ChannelDescriptor.value (d : ChannelDescriptor) : ChannelField → Option Nat
  | .name => some d.name
  | .buffer => some d.buffer
  | .size => some d.size
  | .write | .read | .flags => none

theorem ChannelDescriptor.value_lt (d : ChannelDescriptor) {f : ChannelField} {v : Nat} (h : d.value f = some v) :
    v < 2 ^ 32 := by
  cases f with
  | name =>
    cases h
    exact d.name_lt
  | buffer =>
    cases h
    exact d.buffer_lt
  | size =>
    cases h
    exact d.size_lt
  | write | read | flags => cases h

/-- The member initializers of `Channel`. -/
def ChannelField.initializer : ChannelField → Nat
  | .flags => Flags.noBlockTrim.value
  | .name | .buffer | .size | .write | .read => 0

/-- "SEGGER". -/
def firstPart : List UInt8 := [83, 69, 71, 71, 69, 82]

/-- " RTT", and zeros. -/
def secondPart : List UInt8 := [32, 82, 84, 84, 0, 0, 0, 0, 0, 0]

namespace ControlBlock

/-- The address of a field of the header. -/
def headerAt (b : ControlBlock) (f : HeaderField) : Nat := b.address + offsetOf headerFields f

/-- The constructor of `Header`. -/
def constructHeader (b : ControlBlock) (memory : Contents) : Contents :=
  let memory := storeWords 4 memory [(b.headerAt .maxUpChannels, b.upChannels),
    (b.headerAt .maxDownChannels, b.downChannels)]
  let memory := store memory (b.headerAt .id) firstPart
  store memory (b.headerAt .id + firstPart.length) secondPart

/-- The channels of an array. -/
def places (n : Nat) (place : Nat → Place) : List Place := (List.range n).map place

/-- The member initializers of the channels. -/
def initializers (b : ControlBlock) : List (Nat × Nat) :=
  (places b.upChannels .up ++ places b.downChannels .down).flatMap fun p =>
    channelFields.map fun (f, _) => (b.wordAt p f, f.initializer)

/-- One loop of the body. -/
def assignments (b : ControlBlock) (place : Nat → Place) (descriptors : List ChannelDescriptor) : List (Nat × Nat) :=
  descriptors.zipIdx.flatMap fun (d, i) =>
    [(b.wordAt (place i) .name, d.name), (b.wordAt (place i) .buffer, d.buffer), (b.wordAt (place i) .size, d.size)]

/-- The constructor; `none` where it does not get past the checks. -/
def construct (b : ControlBlock) (up down : List ChannelDescriptor) (memory : Contents) : Option Contents :=
  let memory := storeWords 4 (b.constructHeader memory) b.initializers
  if up.length = b.upChannels ∧ down.length = b.downChannels then
    some (storeWords 4 (storeWords 4 memory (b.assignments .up up)) (b.assignments .down down))
  else none

/-! What it leaves in the words. -/

variable {b : ControlBlock} {p q : Place} {f g : ChannelField} {memory : Contents} {value : Nat}

theorem eq_or_apart (hp : b.Has p) (hq : b.Has q) :
    (q, g) = (p, f) ∨ b.wordAt p f + 4 ≤ b.wordAt q g ∨ b.wordAt q g + 4 ≤ b.wordAt p f := by
  by_cases heq : (q, g) = (p, f)
  · exact .inl heq
  · exact .inr (words_apart hp hq fun h => heq h.symm)

theorem mem_places {n : Nat} {place : Nat → Place} : p ∈ places n place ↔ ∃ i < n, place i = p := by
  simp [places]

theorem mem_initializers {w : Nat × Nat} :
    w ∈ b.initializers ↔ ∃ q, b.Has q ∧ ∃ g, w = (b.wordAt q g, g.initializer) := by
  have hhas : ∀ q, q ∈ places b.upChannels .up ++ places b.downChannels .down ↔ b.Has q := by
    intro q
    rw [List.mem_append, mem_places, mem_places]
    cases q <;> simp [Has, Place.index, count]
  unfold initializers
  rw [List.mem_flatMap]
  constructor
  · rintro ⟨q, hq, hw⟩
    obtain ⟨⟨g, _⟩, -, rfl⟩ := List.mem_map.mp hw
    exact ⟨q, (hhas q).mp hq, g, rfl⟩
  · rintro ⟨q, hq, g, rfl⟩
    exact ⟨q, (hhas q).mpr hq, List.mem_map.mpr ⟨_, mem_channelFields g, rfl⟩⟩

theorem field_initializers (hp : b.Has p) : b.field (storeWords 4 memory b.initializers) p f = f.initializer := by
  unfold field
  apply loadWord_storeWords
  · cases f <;> decide
  · exact mem_initializers.mpr ⟨p, hp, f, rfl⟩
  · intro w hw
    obtain ⟨q, hq, g, rfl⟩ := mem_initializers.mp hw
    rcases eq_or_apart (f := f) (g := g) hp hq with heq | hapart
    · cases heq
      exact .inl rfl
    · exact .inr hapart

variable {place : Nat → Place} {ds : List ChannelDescriptor}

theorem mem_assignments {w : Nat × Nat} : w ∈ b.assignments place ds ↔
    ∃ (i : Nat) (hi : i < ds.length) (g : ChannelField) (v : Nat),
      ds[i].value g = some v ∧ w = (b.wordAt (place i) g, v) := by
  unfold assignments
  rw [List.mem_flatMap]
  constructor
  · rintro ⟨⟨d, i⟩, hd, hw⟩
    have hget : ds[i]? = some d := List.mem_zipIdx_iff_getElem?.mp hd
    obtain ⟨hi, rfl⟩ := List.getElem?_eq_some_iff.mp hget
    simp only [List.mem_cons, List.not_mem_nil, or_false] at hw
    rcases hw with rfl | rfl | rfl
    · exact ⟨i, hi, .name, _, rfl, rfl⟩
    · exact ⟨i, hi, .buffer, _, rfl, rfl⟩
    · exact ⟨i, hi, .size, _, rfl, rfl⟩
  · rintro ⟨i, hi, g, v, hv, rfl⟩
    refine ⟨(ds[i], i), List.mem_zipIdx_iff_getElem?.mpr (List.getElem?_eq_getElem hi), ?_⟩
    cases g <;> cases hv <;> simp

/-- A loop over the descriptors of one array of channels. -/
structure Loops (b : ControlBlock) (place : Nat → Place) (ds : List ChannelDescriptor) : Prop where
  has : ∀ i < ds.length, b.Has (place i)
  injective : ∀ i j, place i = place j → i = j

theorem Loops.field_eq (h : Loops b place ds) {i : Nat} (hi : i < ds.length) {v : Nat} (hv : ds[i].value f = some v) :
    b.field (storeWords 4 memory (b.assignments place ds)) (place i) f = v := by
  unfold field
  apply loadWord_storeWords
  · exact ds[i].value_lt hv
  · exact mem_assignments.mpr ⟨i, hi, f, v, hv, rfl⟩
  · intro w hw
    obtain ⟨j, hj, g, v', hv', rfl⟩ := mem_assignments.mp hw
    rcases eq_or_apart (f := f) (g := g) (h.has i hi) (h.has j hj) with heq | hapart
    · obtain ⟨hplace, rfl⟩ := Prod.mk.inj heq
      cases h.injective j i hplace
      rw [hv] at hv'
      cases hv'
      exact .inl rfl
    · exact .inr hapart

theorem Loops.field_other (h : Loops b place ds) (hp : b.Has p)
    (hother : ∀ i (hi : i < ds.length), place i = p → ds[i].value f = none) :
    b.field (storeWords 4 memory (b.assignments place ds)) p f = b.field memory p f := by
  unfold field
  apply loadWord_storeWords_apart
  intro w hw
  obtain ⟨j, hj, g, v, hv, rfl⟩ := mem_assignments.mp hw
  rcases eq_or_apart (f := f) (g := g) hp (h.has j hj) with heq | hapart
  · obtain ⟨hplace, rfl⟩ := Prod.mk.inj heq
    rw [hother j hj hplace] at hv
    cases hv
  · exact hapart

theorem construct_eq {up down : List ChannelDescriptor} {memory' : Contents}
    (h : b.construct up down memory = some memory') :
    up.length = b.upChannels ∧ down.length = b.downChannels ∧
      memory' = storeWords 4 (storeWords 4 (storeWords 4 (b.constructHeader memory) b.initializers)
        (b.assignments .up up))
        (b.assignments .down down) := by
  unfold construct at h
  split at h
  next hlength =>
    cases h
    exact ⟨hlength.1, hlength.2, rfl⟩
  · cases h

/-- **What the constructor leaves** in an up channel, whatever was in the memory:
what its descriptor says, and the initializers elsewhere. -/
theorem construct_up {up down : List ChannelDescriptor} {memory' : Contents}
    (h : b.construct up down memory = some memory')
    {i : Nat} (hi : i < up.length) : b.field memory' (.up i) f = (up[i].value f).getD f.initializer := by
  obtain ⟨hup, hdown, rfl⟩ := construct_eq h
  have hloop : Loops b .up up := ⟨fun _ hj => Nat.lt_of_lt_of_eq hj hup, fun _ _ heq => Place.up.inj heq⟩
  have hloop' : Loops b .down down := ⟨fun _ hj => Nat.lt_of_lt_of_eq hj hdown, fun _ _ heq => Place.down.inj heq⟩
  rw [hloop'.field_other (hloop.has i hi) fun _ _ heq => by cases heq]
  cases hv : up[i].value f with
  | some v => exact hloop.field_eq hi hv
  | none =>
    rw [hloop.field_other (hloop.has i hi), field_initializers (hloop.has i hi)]
    · rfl
    · intro j hj heq
      cases heq
      exact hv

end ControlBlock

end Postform.Rtt
