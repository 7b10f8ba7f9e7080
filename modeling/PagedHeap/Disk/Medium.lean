import PagedHeap.Page.Image
import PagedHeap.SortedMap

/-!
# Files

A file is a sequence of bytes that can be cut and extended at its end.  It is kept in blocks of
one page each; blocks that hold only zeros may be absent, so a hole of any size costs nothing.
Bytes behind the end are zero in every block, so an extended file reads zeros there.
-/

namespace PagedHeap

/-- A block, absent ones being blank. -/
def blockOf (blocks : SortedMap Nat Image) (n : Nat) : Image :=
  (blocks.get? n).getD Image.blank

structure Medium where
  length : Nat
  blocks : SortedMap Nat Image
  cleared : ∀ n i (hi : i < pageSize), length ≤ n * pageSize + i → (blockOf blocks n)[i] = 0

namespace Medium

def empty : Medium where
  length := 0
  blocks := ∅
  cleared _ _ hi _ := Image.getElem_blank hi

instance : Inhabited Medium := ⟨empty⟩

def block (m : Medium) (n : Nat) : Image :=
  blockOf m.blocks n

/-- The byte at a position; positions behind the end read as zero. -/
def byte (m : Medium) (i : Nat) : UInt8 :=
  (m.block (i / pageSize)).get ⟨i % pageSize, Nat.mod_lt i (by decide)⟩

theorem blockOf_insert (blocks : SortedMap Nat Image) (n m : Nat) (img : Image) :
    blockOf (blocks.insert n img) m = if n = m then img else blockOf blocks m := by
  unfold blockOf
  rw [SortedMap.get?_insert]
  split <;> rfl

/-- Replaces a whole block, extending the file to the end of the block if it is shorter. -/
def writeBlock (m : Medium) (n : Nat) (img : Image) : Medium where
  length := max m.length ((n + 1) * pageSize)
  blocks := m.blocks.insert n img
  cleared k i hi hbehind := by
    have hend : (n + 1) * pageSize = n * pageSize + pageSize := Nat.succ_mul n pageSize
    simp only [blockOf_insert]
    split
    · rename_i heq
      subst heq
      omega
    · exact m.cleared k i hi (by omega)

/-- Cuts the file, or extends it by zeros, to a length. -/
def resize (m : Medium) (length : Nat) : Medium where
  length := length
  blocks := m.blocks.filterMap fun n img => some (img.truncate (length - n * pageSize))
  cleared k i hi hbehind := by
    unfold blockOf
    rw [SortedMap.get?_filterMap]
    cases m.blocks.get? k with
    | none => exact Image.getElem_blank hi
    | some img =>
      simp only [Option.bind_some, Option.getD_some, Image.getElem_truncate]
      exact if_neg (by omega)

/-- Replaces bytes inside one block, extending the file if they go beyond its end. -/
def patchBlock (m : Medium) (n start : Nat) (bytes : List UInt8) : Medium where
  length := max m.length (n * pageSize + start + bytes.length)
  blocks := m.blocks.insert n ((m.block n).overwrite start bytes)
  cleared k i hi hbehind := by
    simp only [blockOf_insert]
    split
    · rename_i heq
      subst heq
      rw [Image.getElem_overwrite _ _ _ hi, dif_neg (by omega)]
      exact m.cleared n i hi (by omega)
    · exact m.cleared k i hi (by omega)

def patch (m : Medium) (start : Nat) (bytes : List UInt8) : Medium :=
  match bytes with
  | [] => m
  | byte :: rest =>
    let inBlock := pageSize - start % pageSize
    let chunk := (byte :: rest).take inBlock
    (m.patchBlock (start / pageSize) (start % pageSize) chunk).patch (start + chunk.length)
      ((byte :: rest).drop inBlock)
termination_by bytes.length
decreasing_by
  have : start % pageSize < pageSize := Nat.mod_lt start (by decide)
  simp only [List.length_drop, List.length_cons]
  omega

end Medium

end PagedHeap
