import Mathlib.Data.Nat.ModEq
import IoProcessor.Library.Waiters

/-! The queue between the coroutine domain and a driver's interrupt handler:
etl::queue_spsc_isr with the interrupt lock as its access policy. Each locked
operation runs with interrupts masked, so it is one step here. -/
namespace IoProcessor.Hal
open Library Waiters

/-- A suspended coroutine. A `std::coroutine_handle<>` is an `Option` of one. -/
abbrev Coro := Nat

/-- The cells outside the window of `currentSize` entries that starts at
`readIndex` are raw storage and are never read. -/
structure QueueSpscIsr (T : Type) (maxSize : Nat) where
  buffer : Nat → T
  writeIndex : Nat
  readIndex : Nat
  currentSize : Nat
  read_lt : readIndex < maxSize
  size_le : currentSize ≤ maxSize
  write_eq : writeIndex = (readIndex + currentSize) % maxSize

namespace QueueSpscIsr
variable {T : Type} {maxSize : Nat}

def getNextIndex (index maximum : Nat) : Nat :=
  if index + 1 = maximum then 0 else index + 1

theorem getNextIndex_eq {index maximum : Nat} (h : index < maximum) :
    getNextIndex index maximum = (index + 1) % maximum := by
  unfold getNextIndex
  split
  · rename_i he
    rw [he, Nat.mod_self]
  · rw [Nat.mod_eq_of_lt (by omega)]

def empty [Inhabited T] (h : 0 < maxSize) : QueueSpscIsr T maxSize where
  buffer _ := default
  writeIndex := 0
  readIndex := 0
  currentSize := 0
  read_lt := h
  size_le := Nat.zero_le _
  write_eq := by simp

/-- The entries in the order in which they will be popped. -/
def toList (q : QueueSpscIsr T maxSize) : List T :=
  (List.range q.currentSize).map (fun i => q.buffer ((q.readIndex + i) % maxSize))

@[simp] theorem length_toList (q : QueueSpscIsr T maxSize) : q.toList.length = q.currentSize := by
  simp [toList]

@[simp] theorem toList_empty [Inhabited T] (h : 0 < maxSize) :
    (empty h : QueueSpscIsr T maxSize).toList = [] := rfl

theorem write_lt (q : QueueSpscIsr T maxSize) : q.writeIndex < maxSize := by
  rw [q.write_eq]
  exact Nat.mod_lt _ (by have := q.read_lt; omega)

/-- `push_implementation`; `false` reports a full queue. -/
def push (q : QueueSpscIsr T maxSize) (value : T) : Bool × QueueSpscIsr T maxSize :=
  if h : q.currentSize ≠ maxSize then
    (true, {
      buffer := fun i => if i = q.writeIndex then value else q.buffer i
      writeIndex := getNextIndex q.writeIndex maxSize
      readIndex := q.readIndex
      currentSize := q.currentSize + 1
      read_lt := q.read_lt
      size_le := by have := q.size_le; omega
      write_eq := by rw [getNextIndex_eq q.write_lt, q.write_eq, Nat.mod_add_mod, Nat.add_assoc] })
  else (false, q)

/-- `pop_implementation`; `none` reports an empty queue. -/
def pop (q : QueueSpscIsr T maxSize) : Option (T × QueueSpscIsr T maxSize) :=
  if h : q.currentSize = 0 then none
  else some (q.buffer q.readIndex, {
    buffer := q.buffer
    writeIndex := q.writeIndex
    readIndex := getNextIndex q.readIndex maxSize
    currentSize := q.currentSize - 1
    read_lt := by
      rw [getNextIndex_eq q.read_lt]
      exact Nat.mod_lt _ (by have := q.read_lt; omega)
    size_le := by have := q.size_le; omega
    write_eq := by
      rw [getNextIndex_eq q.read_lt, q.write_eq, Nat.mod_add_mod]
      congr 1
      omega })

private theorem window_injective {r i n m : Nat} (hi : i < n) (hn : n < m) :
    (r + i) % m ≠ (r + n) % m := by
  intro h
  have hin : i % m = n % m := Nat.ModEq.add_left_cancel' r h
  rw [Nat.mod_eq_of_lt (by omega), Nat.mod_eq_of_lt hn] at hin
  omega

/-- A push appends, or changes nothing and reports exactly a full queue. -/
theorem push_cases (q : QueueSpscIsr T maxSize) (value : T) :
    (q.push value = (false, q) ∧ q.toList.length = maxSize) ∨
    (∃ q', q.push value = (true, q') ∧ q'.toList = q.toList ++ [value] ∧
      q.toList.length < maxSize) := by
  by_cases h : q.currentSize = maxSize
  · exact .inl ⟨by simp [push, h], by simp [h]⟩
  · have hlt : q.currentSize < maxSize := lt_of_le_of_ne q.size_le h
    refine .inr ⟨_, dif_pos h, ?_, by simpa using hlt⟩
    simp only [toList, List.range_succ, List.map_append, List.map_cons, List.map_nil, q.write_eq, ↓reduceIte]
    congr 1
    apply List.map_congr_left
    intro i hi
    rw [if_neg (window_injective (List.mem_range.mp hi) hlt)]

/-- A pop takes the oldest entry, or reports exactly an empty queue. -/
theorem pop_cases (q : QueueSpscIsr T maxSize) :
    (q.pop = none ∧ q.toList = []) ∨
    (∃ value q', q.pop = some (value, q') ∧ q.toList = value :: q'.toList) := by
  by_cases h : q.currentSize = 0
  · exact .inl ⟨by simp [pop, h], by simp [toList, h]⟩
  · refine .inr ⟨_, _, dif_neg h, ?_⟩
    obtain ⟨n, hn⟩ := Nat.exists_eq_succ_of_ne_zero h
    simp only [toList, hn, Nat.succ_eq_add_one, List.range_succ_eq_map, List.map_cons, List.map_map,
      Nat.add_zero, Nat.mod_eq_of_lt q.read_lt, Nat.add_sub_cancel, getNextIndex_eq q.read_lt]
    congr 1
    apply List.map_congr_left
    intro i _
    simp only [Function.comp_apply, Nat.mod_add_mod, Nat.succ_eq_add_one]
    congr 2
    omega

/-- The queue holds a coroutine when one of its requests does. -/
def Holds (handle : T → Option Coro) (q : QueueSpscIsr T maxSize) (c : Coro) : Prop :=
  ∃ r ∈ q.toList, handle r = some c

variable {handle : T → Option Coro} {q q' : QueueSpscIsr T maxSize} {t : List (Wait Coro)} {r : T}

/-- An accepted await is held by the queue. -/
theorem allHeld_push (h : AllHeld (q.Holds handle) t) (room : q.toList.length < maxSize) {c : Coro}
    (hc : handle r = some c) : AllHeld ((q.push r).2.Holds handle) (t ++ [.suspended c]) := by
  rcases q.push_cases r with ⟨-, hl⟩ | ⟨q', hp, hq, -⟩
  · omega
  · rw [hp]
    refine h.suspend ?_ ⟨r, by simp [hq], hc⟩
    rintro d ⟨x, hx, hd⟩
    exact ⟨x, by simp [hq, hx], hd⟩

/-- A request taken out of the queue is posted. -/
theorem allHeld_pop (h : AllHeld (q.Holds handle) t) (hq : q.toList = r :: q'.toList) :
    AllHeld (q'.Holds handle) (t ++ postedWait (handle r)) := by
  refine h.post_option ?_
  rintro d ⟨x, hx, hd⟩
  rw [hq] at hx
  rcases List.mem_cons.mp hx with rfl | hx
  · exact .inl hd
  · exact .inr ⟨x, hx, hd⟩

end QueueSpscIsr

/-- `DriverRequestQueue<T, 8>`: the capacity every HAL driver uses. -/
abbrev DriverRequestQueue (T : Type) := QueueSpscIsr T 8

def DriverRequestQueue.init {T : Type} [Inhabited T] : DriverRequestQueue T :=
  QueueSpscIsr.empty (by decide)

@[simp] theorem DriverRequestQueue.toList_init {T : Type} [Inhabited T] :
    (DriverRequestQueue.init : DriverRequestQueue T).toList = [] := rfl

end IoProcessor.Hal
