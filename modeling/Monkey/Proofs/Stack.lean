import Monkey.Machine

/-!
# The stack as a list

The stack of a machine is an array of which the first `sp` slots are in use. `StackHas` says what
these slots hold, the lowest first. Its lemmas say what each way of changing the array means for
the list.
-/

namespace Monkey

/-- The first `sp` slots of the stack hold the values `vs`. -/
structure StackHas (stack : Array Value) (sp : Nat) (vs : List Value) : Prop where
  room : sp ≤ stack.size
  values : stack.toList.take sp = vs

namespace StackHas

variable {stack : Array Value} {sp : Nat} {vs ws : List Value}

theorem length (h : StackHas stack sp vs) : vs.length = sp := by
  rw [← h.values, List.length_take, Array.length_toList]
  exact Nat.min_eq_left h.room

/-- A slot in use holds the value at its place. -/
theorem getD (h : StackHas stack sp vs) {i : Nat} (hi : i < sp) :
    stack.getD i .null = vs.getD i .null := by
  rw [Array.getD_eq_getD_getElem?, List.getD_eq_getElem?_getD, ← h.values, List.getElem?_take,
    if_pos hi, Array.getElem?_toList]

theorem push (h : StackHas stack sp vs) (hroom : sp < stack.size) (v : Value) :
    StackHas (stack.setIfInBounds sp v) (sp + 1) (vs ++ [v]) where
  room := by
    rw [Array.size_setIfInBounds]
    exact hroom
  values := by
    have hsp : sp < stack.toList.length := by simpa using hroom
    rw [Array.toList_setIfInBounds, List.take_add_one, List.take_set_of_le (Nat.le_refl sp), h.values,
      List.getElem?_set_self hsp]
    rfl

/-- Taking values off leaves those below them. -/
theorem pop (h : StackHas stack sp (vs ++ ws)) : StackHas stack (sp - ws.length) vs where
  room := Nat.le_trans (Nat.sub_le _ _) h.room
  values := by
    have hlength := h.length
    rw [List.length_append] at hlength
    have htake : stack.toList.take (sp - ws.length) =
        (stack.toList.take sp).take (sp - ws.length) := by
      rw [List.take_take, Nat.min_eq_left (Nat.sub_le _ _)]
    rw [htake, h.values, List.take_left' (by omega)]

/-- The values on top are those that are taken off. -/
theorem extract (h : StackHas stack sp (vs ++ ws)) :
    (stack.extract (sp - ws.length) sp).toList = ws := by
  have hlength := h.length
  rw [List.length_append] at hlength
  rw [Array.toList_extract, List.extract_eq_take_drop, ← List.drop_take, h.values,
    List.drop_left' (by omega)]

theorem set (h : StackHas stack sp vs) (i : Nat) (v : Value) :
    StackHas (stack.setIfInBounds i v) sp (vs.set i v) where
  room := by
    rw [Array.size_setIfInBounds]
    exact h.room
  values := by rw [Array.toList_setIfInBounds, List.take_set, h.values]

/-- The lowest slots hold the lowest values. -/
theorem take (h : StackHas stack sp vs) {count : Nat} (hcount : count ≤ sp) :
    StackHas stack count (vs.take count) where
  room := Nat.le_trans hcount h.room
  values := by rw [← h.values, List.take_take, Nat.min_eq_left hcount]

/-- Only the slots in use matter. -/
theorem congr {stack' : Array Value} (h : StackHas stack sp vs) (hroom : sp ≤ stack'.size)
    (hsame : ∀ i < sp, stack'[i]? = stack[i]?) : StackHas stack' sp vs where
  room := hroom
  values := by
    rw [← h.values]
    apply List.ext_getElem?
    intro i
    rw [List.getElem?_take, List.getElem?_take, Array.getElem?_toList, Array.getElem?_toList]
    split
    · next hi => exact hsame i hi
    · rfl

/-- A slot between other values. -/
theorem getD_between {us : List Value} (h : StackHas stack sp (us ++ (vs ++ ws))) {i : Nat}
    (hi : i < vs.length) : stack.getD (us.length + i) .null = vs.getD i .null := by
  have hlength := h.length
  rw [List.length_append, List.length_append] at hlength
  rw [h.getD (by omega), List.getD_eq_getElem?_getD, List.getD_eq_getElem?_getD,
    List.getElem?_append_right (Nat.le_add_right _ _), Nat.add_sub_cancel_left,
    List.getElem?_append_left hi]

/-- The value below those on top. -/
theorem getD_below {v : Value} (h : StackHas stack sp (vs ++ v :: ws)) :
    ws.length < sp ∧ stack.getD (sp - 1 - ws.length) .null = v := by
  have hlength := h.length
  rw [List.length_append, List.length_cons] at hlength
  refine ⟨by omega, ?_⟩
  rw [h.getD (by omega), List.getD_eq_getElem?_getD, List.getElem?_append_right (by omega),
    show sp - 1 - ws.length - vs.length = 0 by omega]
  rfl

theorem set_between {us : List Value} (h : StackHas stack sp (us ++ (vs ++ ws))) {i : Nat}
    (hi : i < vs.length) (v : Value) :
    StackHas (stack.setIfInBounds (us.length + i) v) sp (us ++ (vs.set i v ++ ws)) := by
  have hset := h.set (us.length + i) v
  rwa [List.set_append_right _ _ (Nat.le_add_right _ _), Nat.add_sub_cancel_left,
    List.set_append_left _ _ hi] at hset

/-- Slots that are taken into use at once hold null. -/
theorem clear (h : StackHas stack sp vs) {count : Nat} (hroom : sp + count ≤ stack.size) :
    StackHas (Executing.clearSlots stack sp count) (sp + count)
      (vs ++ List.replicate count .null) := by
  induction count generalizing stack sp vs with
  | zero => simpa [Executing.clearSlots] using h
  | succ count ih =>
    have hpush := h.push (by omega : sp < stack.size) .null
    have hrest := ih hpush (by rw [Array.size_setIfInBounds]; omega)
    rw [Executing.clearSlots, List.replicate_succ]
    rwa [Nat.add_assoc, Nat.add_comm 1, List.append_assoc] at hrest

end StackHas

end Monkey
