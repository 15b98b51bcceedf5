-- SUMMARY: The text of a trace file, as the generator prints it and as the harness reads it back.
import ConcurrentBST.Harness.Load
import ConcurrentBST.Tracegen.Program
import Mathlib.Data.List.TakeWhile

/-!
# Trace files

The generator prints a line with `sprintf` and `%lu`, and the harness takes the
file apart with `getline`, `find`, `substr` and `stoi`. An `unsigned long` need not
be an `int`: such a key is printed, but it is not read back.
-/

namespace Tracegen

-- ---------------------------------------------------------------------------
-- What is printed
-- ---------------------------------------------------------------------------

def Op.word : Op → List Char
  | .insert => "insert".toList
  | .search => "search".toList
  | .delete => "delete".toList

/-- `%lu`. -/
def printKey (key : UInt64) : List Char :=
  Nat.toDigits 10 key.toNat

/-- A line without its end. -/
def Line.text (line : Line) : List Char :=
  line.op.word ++ ' ' :: printKey line.key

/-- `sprintf(buf, "insert %lu\n", key)`, and the same for the other operations. -/
def Line.print (line : Line) : List Char :=
  line.text ++ ['\n']

/-- What the calls of `write` come to. -/
def fileText (lines : List Line) : List Char :=
  lines.flatMap Line.print

variable {line : Line} {key : UInt64} {c : Char}

theorem isDigit_of_mem_printKey (hc : c ∈ printKey key) : c.isDigit = true :=
  Nat.isDigit_of_mem_toDigits (by decide) (by decide) hc

end Tracegen

namespace Harness

open Tracegen (Line fileText printKey)

variable {lines : List Line} {line : Line} {key : UInt64} {text : Text} {c : Char}
  {ops : List (OperationType × Int)} {l : Loaded} {n : Nat}

-- ---------------------------------------------------------------------------
-- Lines
-- ---------------------------------------------------------------------------

/-- `while (std::getline(file, str))`. The last line may lack its end. -/
def getLines : Text → List Text
  | [] => []
  | c :: text =>
      if c = '\n' then [] :: getLines text
      else
        match getLines text with
        | [] => [[c]]
        | str :: strs => (c :: str) :: strs

theorem getLines_append {str : Text} (hstr : '\n' ∉ str) :
    getLines (str ++ '\n' :: text) = str :: getLines text := by
  induction str with
  | nil => rfl
  | cons c str ih =>
    rw [List.mem_cons, not_or] at hstr
    rw [List.cons_append, getLines, if_neg (Ne.symm hstr.1), ih hstr.2]

theorem isDigit_ne {c d : Char} (hc : c.isDigit = true) (hd : d.isDigit = false) : c ≠ d := by
  rintro rfl
  exact absurd hc (by simp [hd])

/-- What stands in a line has no end of a line in it. -/
theorem newline_not_mem : '\n' ∉ line.text := by
  rw [Line.text, List.mem_append, List.mem_cons]
  rintro (hword | hspace | hkey)
  · revert hword
    cases line.op <;> decide
  · exact absurd hspace (by decide)
  · exact isDigit_ne (Tracegen.isDigit_of_mem_printKey hkey) (by decide) rfl

theorem getLines_fileText : getLines (fileText lines) = lines.map Line.text := by
  induction lines with
  | nil => rfl
  | cons line lines ih =>
    have hcons : fileText (line :: lines) = line.text ++ '\n' :: fileText lines := by
      simp [fileText, Line.print]
    rw [hcons, getLines_append newline_not_mem, ih, List.map_cons]

-- ---------------------------------------------------------------------------
-- Numbers
-- ---------------------------------------------------------------------------

theorem isSpace_of_isDigit (hc : c.isDigit = true) : isSpace c = false := by
  have hspace : c ≠ ' ' := isDigit_ne hc (by decide)
  have hlast : ¬ c ≤ '\r' := by
    rw [Char.isDigit, Bool.and_eq_true, decide_eq_true_iff, decide_eq_true_iff] at hc
    rw [Char.le_def, UInt32.le_iff_toNat_le]
    have hlow : 48 ≤ c.val.toNat := UInt32.le_iff_toNat_le.mp hc.1
    change ¬ c.val.toNat ≤ 13
    omega
  simp [isSpace, hspace, hlast]

/-- `stoi` of a number that has been printed behind a space. -/
theorem stoi_toDigits : stoi (' ' :: Nat.toDigits 10 n) =
    if (n : Int) ≤ intMax then .ok (n : Int) else .error .outOfRange := by
  have hdigit : ∀ c ∈ Nat.toDigits 10 n, c.isDigit = true := fun c hc =>
    Nat.isDigit_of_mem_toDigits (by decide) (by decide) hc
  have hvalue : digitsToNat (Nat.toDigits 10 n) = n := Nat.ofDigitChars_ten_toDigits
  have hne : Nat.toDigits 10 n ≠ [] := Nat.toDigits_ne_nil
  generalize Nat.toDigits 10 n = digits at *
  obtain ⟨d, ds, rfl⟩ := List.exists_cons_of_ne_nil hne
  have hd : d.isDigit = true := hdigit d (.head _)
  have hdrop : (' ' :: d :: ds).dropWhile isSpace = d :: ds := by
    rw [List.dropWhile_cons_of_pos (by decide), List.dropWhile_cons_of_neg]
    simp [isSpace_of_isDigit hd]
  have htake : (d :: ds).takeWhile Char.isDigit = d :: ds := by
    exact List.takeWhile_eq_self_iff.mpr hdigit
  have hlow : intMin ≤ (n : Int) := by
    unfold intMin
    omega
  rw [stoi, hdrop]
  split
  next negative rest heq =>
  -- The first digit is no sign.
  have hrest : (negative, rest) = (false, d :: ds) := by
    rw [← heq]
    split
    · next heq => exact absurd (List.cons.inj heq).1 (isDigit_ne hd (by decide))
    · next heq => exact absurd (List.cons.inj heq).1 (isDigit_ne hd (by decide))
    · rfl
  obtain ⟨rfl, rfl⟩ := Prod.mk.inj hrest
  simp only [htake, hvalue, hne, if_false, Bool.false_eq_true, hlow, true_and]

-- ---------------------------------------------------------------------------
-- The round trip
-- ---------------------------------------------------------------------------

/-- The operation that the harness knows by the word of the generator. -/
def operationType : Tracegen.Op → OperationType
  | .insert => .insert
  | .search => .search
  | .delete => .delete

/-- What a line of the generator is meant to be. -/
def operation (line : Line) : OperationType × Int :=
  (operationType line.op, line.key.toNat)

/-- The key of the line is an `int`. -/
def InRange (line : Line) : Prop := (line.key.toNat : Int) ≤ intMax

instance : DecidablePred InRange := fun line =>
  inferInstanceAs (Decidable ((line.key.toNat : Int) ≤ intMax))

theorem space_not_mem (op : Tracegen.Op) : ∀ c ∈ op.word, (c != ' ') = true := by
  cases op <;> exact List.all_eq_true.mp rfl

theorem operationText_text : operationText line.text = (operationType line.op).word := by
  rw [operationText, Line.text, List.takeWhile_append_of_pos (space_not_mem _),
    List.takeWhile_cons_of_neg (by decide), List.append_nil]
  cases line.op <;> rfl

theorem valueText_text : valueText line.text = .ok (' ' :: printKey line.key) := by
  rw [valueText, Line.text, List.dropWhile_append_of_pos (space_not_mem _),
    List.dropWhile_cons_of_neg (by decide)]

/-- A key that is no `int` stops the harness. -/
theorem stoi_printKey : stoi (' ' :: printKey line.key) =
    if InRange line then .ok (line.key.toNat : Int) else .error .outOfRange :=
  stoi_toDigits

theorem isLine_text {op : OperationType × Int} :
    IsLine line.text op ↔ InRange line ∧ op = operation line := by
  have hkey : NamesKey line.text op.2 ↔ InRange line ∧ op.2 = line.key.toNat := by
    simp only [NamesKey, valueText_text, Except.ok.injEq, exists_eq_left', stoi_printKey]
    split
    · next hrange => simp [hrange, eq_comm]
    · next hrange => simp [hrange]
  have hword : operationText line.text = op.1.word ↔ op.1 = operationType line.op := by
    rw [operationText_text]
    cases line.op <;> cases op.1 <;> decide
  refine ⟨fun h => ?_, fun ⟨hrange, hop⟩ => ⟨hword.mpr ?_, hkey.mpr ⟨hrange, ?_⟩⟩⟩
  · obtain ⟨hrange, hvalue⟩ := hkey.mp h.key
    exact ⟨hrange, Prod.ext (hword.mp h.word) hvalue⟩
  · rw [hop]
    rfl
  · rw [hop]
    rfl

theorem forall₂_isLine : List.Forall₂ IsLine (lines.map Line.text) ops ↔
    (∀ line ∈ lines, InRange line) ∧ ops = lines.map operation := by
  induction lines generalizing ops with
  | nil => simp
  | cons line lines ih =>
    rw [List.map_cons, List.forall₂_cons_left_iff]
    simp only [isLine_text, ih, List.forall_mem_cons, List.map_cons]
    constructor
    · rintro ⟨_, _, ⟨hrange, rfl⟩, ⟨hall, rfl⟩, rfl⟩
      exact ⟨⟨hrange, hall⟩, rfl⟩
    · rintro ⟨⟨hrange, hall⟩, rfl⟩
      exact ⟨_, _, ⟨hrange, rfl⟩, ⟨hall, rfl⟩, rfl⟩

end Harness
