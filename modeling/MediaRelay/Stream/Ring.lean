/-! # Cells of a ring

The byte at offset `i` of a stream lies in cell `i % capacity`. A cell exists once it has been
written; the first turn writes the cells one after another from cell 0.
-/
namespace MediaRelay

/-- Consecutive cells that do not go round the end of the ring. -/
structure Span where
  start : Nat
  length : Nat
deriving DecidableEq

structure Ring where
  cells : ByteArray := ByteArray.empty

namespace Ring

def cell? (r : Ring) (i : Nat) : Option UInt8 := r.cells.data[i]?

/-- Overwrites the cells from `start` on and leaves all others as they are. -/
def write (r : Ring) (start : Nat) (bytes : ByteArray) : Ring :=
  ⟨bytes.copySlice 0 r.cells start bytes.size false⟩

def read (r : Ring) (s : Span) : ByteArray := r.cells.extract s.start (s.start + s.length)

theorem data_write (r : Ring) (start : Nat) (bytes : ByteArray) :
    (r.write start bytes).cells.data =
      r.cells.data.extract 0 start ++ bytes.data ++
        r.cells.data.extract (start + bytes.size) r.cells.data.size := by
  have hb : bytes.size = bytes.data.size := rfl
  simp only [write, ByteArray.copySlice, hb, Nat.zero_add, Nat.sub_zero, Nat.min_self,
    Array.extract_size]

theorem cell?_write (r : Ring) (start : Nat) (bytes : ByteArray) (h : start ≤ r.cells.size)
    (i : Nat) :
    (r.write start bytes).cell? i =
      if start ≤ i ∧ i < start + bytes.size then bytes.data[i - start]? else r.cell? i := by
  have hb : bytes.size = bytes.data.size := rfl
  have hr : start ≤ r.cells.data.size := h
  have hs : (r.cells.data.extract 0 start).size = start := by
    rw [Array.size_extract]
    omega
  rw [cell?, data_write, hb, Array.getElem?_append, Array.getElem?_append, Array.size_append, hs]
  by_cases h1 : i < start
  · rw [if_pos (by omega), if_pos h1, if_neg (by omega), Array.getElem?_extract, if_pos (by omega),
      Nat.zero_add, cell?]
  · by_cases h2 : i < start + bytes.data.size
    · rw [if_pos h2, if_neg h1, if_pos ⟨by omega, h2⟩]
    · rw [if_neg h2, if_neg (by omega), Array.getElem?_extract, cell?]
      split
      · rw [Nat.add_sub_cancel' (by omega)]
      · exact (Array.getElem?_eq_none (by omega)).symm

theorem size_write (r : Ring) (start : Nat) (bytes : ByteArray) (h : start ≤ r.cells.size) :
    (r.write start bytes).cells.size = max r.cells.size (start + bytes.size) := by
  have hr : r.cells.size = r.cells.data.size := rfl
  have hb : bytes.size = bytes.data.size := rfl
  have hw : (r.write start bytes).cells.size = (r.write start bytes).cells.data.size := rfl
  rw [hw, data_write]
  simp only [Array.size_append, Array.size_extract]
  omega

theorem getElem?_read (r : Ring) (s : Span) (i : Nat) :
    (r.read s).data[i]? = if i < s.length then r.cell? (s.start + i) else none := by
  rw [read, cell?, ByteArray.data_extract, Array.getElem?_extract]
  split <;> split
  · rfl
  · omega
  · exact (Array.getElem?_eq_none (by omega)).symm
  · rfl

end Ring
end MediaRelay
