import ObjectVault.Proofs.CompactText
import ObjectVault.Proofs.TableReading
import ObjectVault.Proofs.ValueText
import Mathlib

namespace ObjectVault

namespace Json
open Decimal

theorem printable_replicate (k : Nat) : Printable (List.replicate k '0') := by
  intro c mem
  rw [List.eq_of_mem_replicate mem]
  decide

theorem printable_significand (x : Scaled) : Printable x.significand.1 := by
  intro c mem
  refine printable_digits x.digits c ?_
  exact List.mem_reverse.mp ((List.dropWhile_sublist _).subset (List.mem_reverse.mp mem))

theorem printable_positionalChars {digits : List Char} (h : Printable digits) (point : Int) :
    Printable (positionalChars digits point) := by
  have taken (n : Nat) : Printable (digits.take n) := fun c mem => h c (List.mem_of_mem_take mem)
  have dropped (n : Nat) : Printable (digits.drop n) := fun c mem => h c (List.mem_of_mem_drop mem)
  rw [positionalChars]
  split
  · exact .cons (by decide) (.cons (by decide) ((printable_replicate _).append h))
  · refine ((taken _).append (printable_replicate _)).append (.cons (by decide) ?_)
    split
    · decide
    · exact dropped _

theorem printable_scientificChars {digits : List Char} (h : Printable digits) (plusSign : Bool)
    (order : Int) : Printable (scientificChars plusSign digits order) := by
  have taken (n : Nat) : Printable (digits.take n) := fun c mem => h c (List.mem_of_mem_take mem)
  have dropped (n : Nat) : Printable (digits.drop n) := fun c mem => h c (List.mem_of_mem_drop mem)
  rw [scientificChars]
  refine ((taken 1).append ?_).append (.cons (by decide) (.append ?_ (printable_intChars order)))
  · split
    · decide
    · exact .cons (by decide) (dropped 1)
  · split <;> decide

/-- No control character is written for a number. -/
theorem printable_chars (n : Number) : Printable n.chars := by
  cases n with
  | whole n => exact printable_intChars n
  | real x =>
    rw [Number.chars, FloatStyle.chars]
    split
    · decide
    · generalize magnitude : (if x.isInf = true then _ else _ : List Char) = cs
      have shown : Printable cs := by
        subst magnitude
        have digits := printable_significand ((Binary.ofFloat x).shortest Number.style.tie)
        generalize ((Binary.ofFloat x).shortest Number.style.tie).significand = written at digits
        obtain ⟨cs, point⟩ := written
        split
        · decide
        split
        · decide
        dsimp only
        split
        · exact printable_positionalChars digits point
        · exact printable_scientificChars digits _ _
      split
      · exact shown
      · exact .cons (by decide) shown

end Json

namespace Tsv
open Json

/-- A text whose lines are one cell each: it has no tabs, and no quote stands at the beginning of a
line. The text itself may begin behind that of a line. -/
def Unsplit (behind : Bool) : List Char → Prop
  | [] => True
  | c :: cs => c ≠ '\t' ∧ c ≠ '\r' ∧ (c = '"' → behind = true) ∧ Unsplit (c != '\n') cs

theorem scan_unsplit {cell cs : List Char} (h : Unsplit (!cell.isEmpty) cs) :
    ∃ rows, scan .plain cell [] cs = .ok rows ∧ (∀ row ∈ rows, row.length = 1) ∧
      (cell ++ cs ≠ [] → rows ≠ []) := by
  induction cs generalizing cell with
  | nil =>
    cases cell with
    | nil => exact ⟨[], rfl, by simp, by simp⟩
    | cons c cell => exact ⟨[[c :: cell]], rfl, by simp, by simp⟩
  | cons c cs ih =>
    obtain ⟨tab, home, quote, others⟩ := h
    by_cases feed : c = '\n'
    · subst feed
      have own : Unsplit (!([] : List Char).isEmpty) cs := others
      obtain ⟨rows, read, single, -⟩ := ih own
      refine ⟨[cell] :: rows, ?_, List.forall_mem_cons.mpr ⟨rfl, single⟩, by simp⟩
      rw [scan_feed (by decide), read]
      rfl
    · have nonempty : (!(cell ++ [c]).isEmpty) = (c != '\n') := by
        rw [bne_iff_ne.mpr feed]
        simp
      rw [← nonempty] at others
      obtain ⟨rows, read, single, filled⟩ := ih others
      have closed : ¬ (c == '"' && cell.isEmpty) = true := by
        intro opens
        rw [Bool.and_eq_true, beq_iff_eq] at opens
        have behind := quote opens.1
        simp [opens.2] at behind
      refine ⟨rows, ?_, single, fun _ => filled (by simp)⟩
      rw [scan, if_neg (by decide), if_neg (by simp), if_neg closed, if_neg (by simpa using tab),
        if_neg (by simp [home]), if_neg (by simpa using feed), read]

/-- A text of lines that are one cell each is a frame without columns. -/
theorem toFrame_of_unsplit {cs : List Char} (h : Unsplit false cs) (filled : cs ≠ []) :
    ∃ frame, toFrame cs = .ok frame := by
  have own : Unsplit (!([] : List Char).isEmpty) cs := h
  obtain ⟨rows, read, single, nonempty⟩ := scan_unsplit own
  obtain ⟨header, body, rfl⟩ := List.exists_cons_of_ne_nil (nonempty filled)
  obtain ⟨first, others⟩ := List.forall_mem_cons.mp single
  obtain ⟨frame, made, -⟩ := assemble_ok (header.drop 1) body
  have fits : firstMisfit ((header.drop 1).length + 1) 1 body = none := by
    rw [firstMisfit_eq_none_iff, List.length_drop, first]
    exact others
  refine ⟨frame, ?_⟩
  rw [toFrame, records, read]
  simp only [bind, Except.bind, fits, made]
  rfl

theorem unsplit_append {cs rest : List Char} (printable : Printable cs) (h : Unsplit true rest) :
    Unsplit true (cs ++ rest) := by
  induction cs with
  | nil => exact h
  | cons c cs ih =>
    obtain ⟨first, others⟩ := List.forall_mem_cons.mp printable
    have plain : ∀ d : Char, d.toNat < 32 → c ≠ d := by
      rintro d control rfl
      omega
    refine ⟨plain _ (by decide), plain _ (by decide), fun _ => rfl, ?_⟩
    rw [bne_iff_ne.mpr (plain '\n' (by decide))]
    exact ih others

/-- A line that is set in. -/
theorem unsplit_newline {rest : List Char} (level : Nat) (h : Unsplit true rest) :
    Unsplit true (newline (level + 1) ++ rest) := by
  have blanks : Printable (List.replicate (2 * level + 1) ' ') := by
    intro c mem
    rw [List.eq_of_mem_replicate mem]
    decide
  have text : newline (level + 1) ++ rest =
      '\n' :: ' ' :: (List.replicate (2 * level + 1) ' ' ++ rest) := rfl
  rw [text]
  exact ⟨by decide, by decide, fun _ => rfl, by decide, by decide, nofun, unsplit_append blanks h⟩

/-- The line of a bracket or brace that closes. -/
theorem unsplit_close {c : Char} {rest : List Char} (level : Nat) (printed : Printable [c])
    (plain : c ≠ '"') (h : Unsplit true rest) : Unsplit true (newline level ++ c :: rest) := by
  obtain ⟨tab, home, -, behind⟩ : Unsplit true (c :: rest) := unsplit_append printed h
  cases level with
  | zero => exact ⟨by decide, by decide, nofun, tab, home, fun own => absurd own plain, behind⟩
  | succ level => exact unsplit_newline level ⟨tab, home, fun _ => rfl, behind⟩

theorem unsplit_prettyItems {level : Nat} {js : List Json}
    (items : ∀ j ∈ js, ∀ {rest}, Unsplit true rest →
      Unsplit true (prettyChars (level + 1) j ++ rest)) {rest : List Char} (h : Unsplit true rest) :
    Unsplit true (prettyItems level js ++ rest) := by
  induction js with
  | nil =>
    rw [prettyItems, List.append_assoc]
    exact unsplit_close level (by decide) (by decide) h
  | cons j js ih =>
    obtain ⟨first, others⟩ := List.forall_mem_cons.mp items
    have item := unsplit_newline level (first (ih others))
    have comma : Printable [','] := by decide
    simpa [prettyItems] using unsplit_append comma item

theorem unsplit_field {level : Nat} (key : String) {j : Json} {rest : List Char}
    (value : Unsplit true (prettyChars (level + 1) j ++ rest)) :
    Unsplit true (newline (level + 1) ++
      (stringChars key ++ ':' :: ' ' :: (prettyChars (level + 1) j ++ rest))) := by
  have colon : Printable [':', ' '] := by decide
  exact unsplit_newline level
    (unsplit_append (printable_stringChars key) (unsplit_append colon value))

theorem unsplit_prettyFields {level : Nat} {fs : List (String × Json)}
    (values : ∀ f ∈ fs, ∀ {rest}, Unsplit true rest →
      Unsplit true (prettyChars (level + 1) f.2 ++ rest)) {rest : List Char}
    (h : Unsplit true rest) : Unsplit true (prettyFields level fs ++ rest) := by
  induction fs with
  | nil =>
    rw [prettyFields, List.append_assoc]
    exact unsplit_close level (by decide) (by decide) h
  | cons f fs ih =>
    obtain ⟨first, others⟩ := List.forall_mem_cons.mp values
    have field := unsplit_field f.1 (first (ih others))
    have comma : Printable [','] := by decide
    simpa [prettyFields] using unsplit_append comma field

theorem unsplit_prettyChars {j : Json} (h : Legible j) :
    ∀ (level : Nat) {rest : List Char}, Unsplit true rest →
      Unsplit true (prettyChars level j ++ rest) := by
  induction h with
  | null => exact fun _ _ => unsplit_append (show Printable ['n', 'u', 'l', 'l'] by decide)
  | bool b =>
    cases b
    · exact fun _ _ => unsplit_append (show Printable ['f', 'a', 'l', 's', 'e'] by decide)
    · exact fun _ _ => unsplit_append (show Printable ['t', 'r', 'u', 'e'] by decide)
  | @number n m literal => exact fun _ _ => unsplit_append (printable_chars n)
  | string s => exact fun _ _ => unsplit_append (printable_stringChars s)
  | @array js _ ih =>
    intro level rest behind
    have bracket : Printable ['['] := by decide
    cases js with
    | nil => exact unsplit_append (show Printable ['[', ']'] by decide) behind
    | cons j js =>
      obtain ⟨first, others⟩ := List.forall_mem_cons.mp ih
      have items : Unsplit true (prettyItems level js ++ rest) :=
        unsplit_prettyItems (fun i mem => others i mem _) behind
      have text := unsplit_append bracket (unsplit_newline level (first (level + 1) items))
      simpa [prettyChars] using text
  | @object fs _ ih =>
    intro level rest behind
    have brace : Printable ['\x7b'] := by decide
    cases fs with
    | nil => exact unsplit_append (show Printable ['\x7b', '\x7d'] by decide) behind
    | cons f fs =>
      obtain ⟨first, others⟩ := List.forall_mem_cons.mp ih
      have fields : Unsplit true (prettyFields level fs ++ rest) :=
        unsplit_prettyFields (fun i mem => others i mem _) behind
      have text := unsplit_append brace (unsplit_field f.1 (first (level + 1) fields))
      simpa [prettyChars] using text

/-- Each line of the document of a list or an object is one cell. -/
theorem ofText_pretty_of_nested {j : Json} (h : Legible j) (nested : 0 < j.nesting) :
    ∃ frame, ofText j.pretty = .ok frame := by
  have lines : Unsplit true (prettyChars 0 j ++ []) := unsplit_prettyChars h 0 trivial
  rw [List.append_nil] at lines
  obtain ⟨c, cs, text, other⟩ : ∃ c cs, prettyChars 0 j = c :: cs ∧ c ≠ '"' := by
    cases j with
    | array js => cases js <;> exact ⟨'[', _, rfl, by decide⟩
    | object fs => cases fs <;> exact ⟨'\x7b', _, rfl, by decide⟩
    | _ => exact absurd nested (Nat.lt_irrefl 0)
  rw [text] at lines
  obtain ⟨tab, home, -, behind⟩ := lines
  rw [ofText, pretty, String.toList_ofList, text]
  exact toFrame_of_unsplit ⟨tab, home, fun own => absurd own other, behind⟩ (by simp)

end Tsv
end ObjectVault
