import Postform.Lib.Records

/- A byte memory: what `store` writes, what `load` reads back, and that a store
   leaves the bytes outside its own as they are (`store_outside`). A word of `k`
   bytes is stored least significant byte first. Words stored one after another
   leave the last one at each place (`loadWord_storeWords`, `loadWord_storeWords_apart`). -/
namespace Memory

/-- The bytes by address. -/
abbrev Contents := Nat → UInt8

/-- The memory with `bytes` at `address`. -/
def store (memory : Contents) (address : Nat) (bytes : List UInt8) : Contents := fun x =>
  if address ≤ x then bytes[x - address]?.getD (memory x) else memory x

/-- The `count` bytes from `address`. -/
def load (memory : Contents) (address count : Nat) : List UInt8 :=
  (List.range count).map fun i => memory (address + i)

variable {memory memory' : Contents} {address count x : Nat} {bytes : List UInt8}

theorem store_outside (h : x < address ∨ address + bytes.length ≤ x) : store memory address bytes x = memory x := by
  unfold store
  split
  next hle =>
    rw [List.getElem?_eq_none (by omega)]
    rfl
  · rfl

theorem store_inside {i : Nat} (h : i < bytes.length) : store memory address bytes (address + i) = bytes[i] := by
  have hi : address + i - address = i := by omega
  unfold store
  rw [if_pos (Nat.le_add_right ..), hi, List.getElem?_eq_getElem h]
  rfl

theorem load_store : load (store memory address bytes) address bytes.length = bytes := by
  unfold load
  apply List.ext_getElem
  · rw [List.length_map, List.length_range]
  · intro i _ hi
    rw [List.getElem_map, List.getElem_range, store_inside hi]

theorem load_congr (h : ∀ i < count, memory (address + i) = memory' (address + i)) :
    load memory address count = load memory' address count := by
  unfold load
  apply List.map_congr_left
  intro i hi
  exact h i (List.mem_range.mp hi)

/-! Words. -/

def storeWord (k : Nat) (memory : Contents) (address value : Nat) : Contents :=
  store memory address (Records.leBytes k value)

def loadWord (k : Nat) (memory : Contents) (address : Nat) : Nat := Records.ofLeBytes (load memory address k)

variable {k value : Nat}

theorem storeWord_outside (h : x < address ∨ address + k ≤ x) : storeWord k memory address value x = memory x := by
  apply store_outside
  rw [Records.length_leBytes]
  exact h

theorem loadWord_storeWord (h : value < 256 ^ k) : loadWord k (storeWord k memory address value) address = value := by
  have hload : load (storeWord k memory address value) address k = Records.leBytes k value := by
    have h := @load_store memory address (Records.leBytes k value)
    rw [Records.length_leBytes] at h
    exact h
  unfold loadWord
  rw [hload, Records.ofLeBytes_leBytes h]

/-! Words one after another. -/

def storeWords (k : Nat) (memory : Contents) (words : List (Nat × Nat)) : Contents :=
  words.foldl (fun memory w => storeWord k memory w.1 w.2) memory

variable {words : List (Nat × Nat)}

theorem storeWords_outside (h : ∀ w ∈ words, x < w.1 ∨ w.1 + k ≤ x) : storeWords k memory words x = memory x := by
  induction words generalizing memory with
  | nil => rfl
  | cons w words ih =>
    have hrest := @ih (storeWord k memory w.1 w.2) fun v hv => h v (List.mem_cons_of_mem _ hv)
    rw [storeWord_outside (h w List.mem_cons_self)] at hrest
    exact hrest

theorem loadWord_storeWords_apart (h : ∀ w ∈ words, address + k ≤ w.1 ∨ w.1 + k ≤ address) :
    loadWord k (storeWords k memory words) address = loadWord k memory address := by
  unfold loadWord
  rw [load_congr]
  intro i hi
  apply storeWords_outside
  intro w hw
  have := h w hw
  omega

/-- A word has its value where it is among them and all that overlap it agree. -/
theorem loadWord_storeWords (hvalue : value < 256 ^ k) (hmem : (address, value) ∈ words)
    (h : ∀ w ∈ words, w = (address, value) ∨ address + k ≤ w.1 ∨ w.1 + k ≤ address) :
    loadWord k (storeWords k memory words) address = value := by
  induction words generalizing memory with
  | nil => cases hmem
  | cons w words ih =>
    have hrest : ∀ v ∈ words, v = (address, value) ∨ address + k ≤ v.1 ∨ v.1 + k ≤ address :=
      fun v hv => h v (List.mem_cons_of_mem _ hv)
    by_cases hlater : (address, value) ∈ words
    · exact ih hlater hrest
    · -- the last of them that overlaps it is the first
      have hw : w = (address, value) := by
        rcases List.mem_cons.mp hmem with heq | hin
        · exact heq.symm
        · exact absurd hin hlater
      subst hw
      have hapart : ∀ v ∈ words, address + k ≤ v.1 ∨ v.1 + k ≤ address := by
        intro v hv
        rcases hrest v hv with rfl | hv'
        · exact absurd hv hlater
        · exact hv'
      calc loadWord k (storeWords k memory ((address, value) :: words)) address
          = loadWord k (storeWord k memory address value) address := loadWord_storeWords_apart hapart
        _ = value := loadWord_storeWord hvalue

end Memory
