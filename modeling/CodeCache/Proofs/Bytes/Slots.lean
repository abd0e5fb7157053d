import CodeCache.Bytes.Cursor

/-!
# Slots of code

A slot is eight bytes of code. Values that are written into slots, one after the other,
leave all other bytes as they are. Where slots overlap, a byte is that of the last write,
so what stands in the slots in the end does not depend on what was there before.
-/

namespace CodeCache

def InSlot (i : Nat) (slot : UInt32) : Prop :=
  slot.toNat ≤ i ∧ i < slot.toNat + 8

instance (i : Nat) (slot : UInt32) : Decidable (InSlot i slot) :=
  inferInstanceAs (Decidable (_ ∧ _))

structure SlotWrite where
  slot : UInt32
  value : UInt64

/-!
## Writing, byte by byte
-/

namespace Bytes

section

variable {bs new : Bytes} {offset i : Nat}

theorem length_take_of_fits (hfits : offset + new.length ≤ bs.length) :
    (bs.take offset).length = offset :=
  List.length_take_of_le (Nat.le_of_add_right_le hfits)

theorem getElem?_overwrite_of_lt (hfits : offset + new.length ≤ bs.length)
    (hi : i < offset) :
    (bs.overwrite offset new)[i]? = bs[i]? := by
  have hfront : i < (bs.take offset).length := by
    rw [length_take_of_fits hfits]
    exact hi
  rw [overwrite, List.append_assoc, List.getElem?_append_left hfront,
    List.getElem?_take_of_lt hi]

theorem getElem?_overwrite_of_le (hfits : offset + new.length ≤ bs.length)
    (hi : offset + new.length ≤ i) :
    (bs.overwrite offset new)[i]? = bs[i]? := by
  have hlength : (bs.take offset ++ new).length = offset + new.length := by
    rw [List.length_append, length_take_of_fits hfits]
  have hback : (bs.take offset ++ new).length ≤ i := by
    rw [hlength]
    exact hi
  rw [overwrite, List.getElem?_append_right hback, hlength, List.getElem?_drop,
    Nat.add_sub_cancel' hi]

theorem getElem?_overwrite_of_mem (hfits : offset + new.length ≤ bs.length)
    (hlow : offset ≤ i) (hhigh : i < offset + new.length) :
    (bs.overwrite offset new)[i]? = new[i - offset]? := by
  have htake := length_take_of_fits hfits
  have hback : (bs.take offset).length ≤ i := by
    rw [htake]
    exact hlow
  rw [overwrite, List.append_assoc, List.getElem?_append_right hback, htake,
    List.getElem?_append_left (Nat.sub_lt_left_of_lt_add hlow hhigh)]

end

def writeAll (code : Bytes) : List SlotWrite → Bytes
  | [] => code
  | w :: ws => (code.overwrite w.slot.toNat (ofUInt64 w.value)).writeAll ws

def HasSlots (code : Bytes) (ws : List SlotWrite) : Prop :=
  ∀ w ∈ ws, w.slot.toNat + 8 ≤ code.length

variable {code code' : Bytes} {w : SlotWrite} {ws : List SlotWrite} {i : Nat}

theorem HasSlots.head (h : code.HasSlots (w :: ws)) :
    w.slot.toNat + (ofUInt64 w.value).length ≤ code.length := by
  rw [length_ofUInt64]
  exact h w List.mem_cons_self

theorem HasSlots.of_length (h : code.HasSlots ws) (hlength : code'.length = code.length) :
    code'.HasSlots ws := by
  intro w hw
  rw [hlength]
  exact h w hw

theorem HasSlots.tail (h : code.HasSlots (w :: ws)) :
    (code.overwrite w.slot.toNat (ofUInt64 w.value)).HasSlots ws := by
  have hrest : code.HasSlots ws := fun v hv => h v (List.mem_cons_of_mem w hv)
  exact hrest.of_length (length_overwrite h.head)

theorem length_writeAll (h : code.HasSlots ws) : (code.writeAll ws).length = code.length := by
  induction ws generalizing code with
  | nil => rfl
  | cons w ws ih => rw [writeAll, ih h.tail, length_overwrite h.head]

theorem writeAll_append (code : Bytes) (ws ws' : List SlotWrite) :
    code.writeAll (ws ++ ws') = (code.writeAll ws).writeAll ws' := by
  induction ws generalizing code with
  | nil => rfl
  | cons w ws ih => simp [writeAll, ih]

theorem getElem?_writeAll_of_not (h : code.HasSlots ws)
    (hi : ∀ slot ∈ ws.map (·.slot), ¬ InSlot i slot) :
    (code.writeAll ws)[i]? = code[i]? := by
  induction ws generalizing code with
  | nil => rfl
  | cons w ws ih =>
      rw [List.map_cons, List.forall_mem_cons] at hi
      rw [writeAll, ih h.tail hi.2]
      have hlength := length_ofUInt64 w.value
      by_cases hlow : i < w.slot.toNat
      · exact getElem?_overwrite_of_lt h.head hlow
      · apply getElem?_overwrite_of_le h.head
        rw [hlength]
        exact Nat.le_of_not_lt fun hhigh => hi.1 ⟨Nat.le_of_not_lt hlow, hhigh⟩

/-- A byte of a slot is what the last write put there, whatever code was there before. -/
theorem getElem?_writeAll_of_mem (h : code.HasSlots ws) (hlength : code'.length = code.length)
    (hi : ∃ slot ∈ ws.map (·.slot), InSlot i slot) :
    (code'.writeAll ws)[i]? = (code.writeAll ws)[i]? := by
  induction ws generalizing code code' with
  | nil =>
      rcases hi with ⟨slot, hslot, _⟩
      cases hslot
  | cons w ws ih =>
      have h' := h.of_length hlength
      have hrest : (code'.overwrite w.slot.toNat (ofUInt64 w.value)).length =
          (code.overwrite w.slot.toNat (ofUInt64 w.value)).length := by
        rw [length_overwrite h.head, length_overwrite h'.head, hlength]
      rw [writeAll, writeAll]
      by_cases hlater : ∃ slot ∈ ws.map (·.slot), InSlot i slot
      · exact ih h.tail hrest hlater
      · -- no later write touches the byte, so this one is the last
        have hnone : ∀ slot ∈ ws.map (·.slot), ¬ InSlot i slot :=
          fun slot hslot hin => hlater ⟨slot, hslot, hin⟩
        have hin : InSlot i w.slot := by
          rcases hi with ⟨slot, hslot, hin⟩
          rcases List.mem_cons.mp hslot with rfl | hslot
          · exact hin
          · exact absurd hin (hnone slot hslot)
        have hhigh : i < w.slot.toNat + (ofUInt64 w.value).length := by
          rw [length_ofUInt64]
          exact hin.2
        rw [getElem?_writeAll_of_not h.tail hnone, getElem?_writeAll_of_not h'.tail hnone,
          getElem?_overwrite_of_mem h.head hin.1 hhigh,
          getElem?_overwrite_of_mem h'.head hin.1 hhigh]

end Bytes

end CodeCache
