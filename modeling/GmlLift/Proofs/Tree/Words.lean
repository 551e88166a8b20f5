import GmlLift.Proofs.Tree.Unfolding
import Mathlib.Data.List.Nodup

/-!
# Words

A text is made of words with parentheses, brackets, blanks, commas and points between them. These
marks never occur inside a word, so a text can be split at them in one way only
(`append_inj_of_marks`). A word is the text of a literal, an owner or a variable, or the head of a
node in parentheses.

* `Word.eq_of_chars`: a literal, an owner and a variable can be told by their words.
* `Kind.forget_eq_of_head`: a node in parentheses can be told by its head.

What is told in this way is the kind except for what no text shows (`Kind.forget`).
-/

namespace GmlLift

/-- **The kind without what no text shows**: whether a number is short, and what pushed it; the
addressing of a variable, the type of an operation, the connective of a short circuit, how deep the
stack was at a conditional, and whether a loop is continued. -/
def Kind.forget : Kind → Kind
  | .int16 value _ => .int32 value.toInt32
  | .var target _ left => .var target .normal left
  | .unary op _ => .unary op .variant
  | .shortCircuit _ => .shortCircuit .and
  | .conditional _ => .conditional 0
  | .whileLoop _ => .whileLoop false
  | kind => kind

/-! ## Splitting at marks -/

/-- The characters that stand between words. -/
def marks : List Char := ['(', ')', '[', ']', ' ', ',', '.']

/-- **A list is split in one way** into elements of one sort and a rest that starts with an element
of another. -/
theorem append_inj_of_span {α : Type} {p : α → Bool} {a a' b b' : List α}
    (ha : ∀ x ∈ a, p x = true) (ha' : ∀ x ∈ a', p x = true) (hb : ∀ x ∈ b.head?, p x = false)
    (hb' : ∀ x ∈ b'.head?, p x = false) (h : a ++ b = a' ++ b') : a = a' ∧ b = b' := by
  have hstops {c : List α} (hc : ∀ x ∈ c.head?, p x = false) : c.takeWhile p = [] := by
    cases c with
    | nil => rfl
    | cons x c => rw [List.takeWhile_cons, hc x rfl, if_neg Bool.false_ne_true]
  have htaken := congrArg (List.takeWhile p) h
  rw [List.takeWhile_append_of_pos ha, List.takeWhile_append_of_pos ha', hstops hb, hstops hb',
    List.append_nil, List.append_nil] at htaken
  subst htaken
  exact ⟨rfl, List.append_cancel_left h⟩

/-- **A word ends where a mark stands.** -/
theorem append_inj_of_marks {a a' b b' : List Char} (ha : ∀ c ∈ a, c ∉ marks)
    (ha' : ∀ c ∈ a', c ∉ marks) (hb : ∀ c ∈ b.head?, c ∈ marks) (hb' : ∀ c ∈ b'.head?, c ∈ marks)
    (h : a ++ b = a' ++ b') : a = a' ∧ b = b' := by
  refine append_inj_of_span (p := fun c => decide (c ∉ marks)) ?_ ?_ ?_ ?_ h <;> simpa

/-! ## Numerals -/

/-- A character of a number. -/
def isNumeral (c : Char) : Bool := c.isDigit || c = '-'

theorem isDigit_of_mem_repr {n : Nat} {c : Char} (h : c ∈ n.repr.toList) : c.isDigit = true := by
  rw [Nat.repr_eq_ofList_toDigits, String.toList_ofList] at h
  exact Nat.isDigit_of_mem_toDigits (by decide) (by decide) h

theorem isNumeral_of_mem_repr {n : Int} {c : Char} (h : c ∈ n.repr.toList) :
    isNumeral c = true := by
  rw [Int.repr_eq_if] at h
  unfold isNumeral
  split at h
  · rw [isDigit_of_mem_repr h, Bool.true_or]
  · rw [String.toList_append, List.mem_append] at h
    rcases h with hminus | hdigit
    · have hminus : c = '-' := by simpa using hminus
      simp [hminus]
    · rw [isDigit_of_mem_repr hdigit, Bool.true_or]

theorem natRepr_inj {n n' : Nat} (h : n.repr = n'.repr) : n = n' := by
  have hvalue (k : Nat) : Nat.ofDigitChars 10 k.repr.toList 0 = k := by
    rw [Nat.repr_eq_ofList_toDigits, String.toList_ofList,
      Nat.ofDigitChars_toDigits (by decide) (by decide)]
  rw [← hvalue n, h, hvalue n']

theorem natRepr_ne_minus (n n' : Nat) : n.repr ≠ "-" ++ n'.repr := by
  intro h
  have hminus : '-' ∈ n.repr.toList := by
    rw [h, String.toList_append]
    exact List.mem_append_left _ (by simp)
  exact absurd (isDigit_of_mem_repr hminus) (by decide)

/-- A number can be told by its numeral. -/
theorem intRepr_inj {n n' : Int} (h : n.repr = n'.repr) : n = n' := by
  rw [Int.repr_eq_if, Int.repr_eq_if] at h
  by_cases hn : 0 ≤ n <;> by_cases hn' : 0 ≤ n' <;> simp only [hn, hn', if_true, if_false] at h
  · have hnat := natRepr_inj h
    omega
  · exact absurd h (natRepr_ne_minus _ _)
  · exact absurd h.symm (natRepr_ne_minus _ _)
  · have hdigits := congrArg String.toList h
    rw [String.toList_append, String.toList_append] at hdigits
    have hnat := natRepr_inj (String.toList_inj.mp (List.append_cancel_left hdigits))
    omega

theorem notMem_marks_of_isNumeral {c : Char} (h : isNumeral c = true) : c ∉ marks := by
  intro hmem
  have hmarks : ∀ c ∈ marks, isNumeral c = false := by simp [marks, isNumeral]
  rw [hmarks c hmem] at h
  cases h

/-- The numeral in a word, if there is one. -/
def numeral : Option Int → List Char
  | some n => n.repr.toList
  | none => []

theorem isNumeral_of_mem_numeral {n? : Option Int} {c : Char} (h : c ∈ numeral n?) :
    isNumeral c = true := by
  cases n? with
  | none => cases h
  | some n => exact isNumeral_of_mem_repr h

theorem repr_ne_empty (n : Int) : n.repr ≠ "" := by
  rw [Int.repr_eq_if]
  split
  · exact Nat.repr_ne_empty
  · intro h
    exact absurd (String.append_eq_empty_iff.mp h).1 (by decide)

theorem numeral_ne_nil (n : Int) : numeral (some n) ≠ [] :=
  fun h => repr_ne_empty n (String.toList_eq_nil_iff.mp h)

theorem numeral_inj {n? m? : Option Int} (h : numeral n? = numeral m?) : n? = m? := by
  cases n? with
  | none =>
    cases m? with
    | none => rfl
    | some n' => exact absurd h.symm (numeral_ne_nil n')
  | some n =>
    cases m? with
    | none => exact absurd h (numeral_ne_nil n)
    | some n' => rw [intRepr_inj (String.toList_inj.mp h)]

/-! ## Words of single nodes -/

/-- A word that is a node by itself. -/
inductive Word where
  | number (value : Int)
  | long (value : Int)
  | truth (value : Bool)
  | string (index : Nat)
  | owner (code : Int)
  | var (target : Nat)

namespace Word

/-- The letters that the word starts with. -/
def letters : Word → List Char
  | number _ | long _ => []
  | truth value => if value then ['t', 'r', 'u', 'e'] else ['f', 'a', 'l', 's', 'e']
  | string _ => ['s', 't', 'r']
  | owner _ => ['i', 'n', 's', 't']
  | var _ => ['v', 'a', 'r']

/-- The number in the word. -/
def value? : Word → Option Int
  | number value | long value | owner value => some value
  | string index | var index => some index
  | truth _ => none

/-- What stands behind the number. -/
def ending : Word → List Char
  | long _ => ['L']
  | _ => []

def chars (w : Word) : List Char := w.letters ++ (numeral w.value? ++ w.ending)

/-- The kind of a node with this word. -/
def kind : Word → Kind
  | number value => .int32 (.ofInt value)
  | long value => .int64 (.ofInt value)
  | truth value => .boolean value
  | string index => .string (.ofNat index)
  | owner code => .owner (.ofInt code)
  | var target => .var (.ofNat target) .normal none

variable {w w' : Word}

theorem isNumeral_letters : ∀ c ∈ w.letters, isNumeral c = false := by
  cases w with
  | truth value => cases value <;> simp [letters, isNumeral]
  | number | long | string | owner | var => simp [letters, isNumeral]

theorem isNumeral_ending : ∀ c ∈ w.ending, isNumeral c = false := by
  cases w <;> simp [ending, isNumeral]

theorem isNumeral_behind_letters :
    ∀ c ∈ (numeral w.value? ++ w.ending).head?, isNumeral c = true := by
  intro c hc
  cases hvalue : w.value? with
  | none =>
    cases w with
    | truth =>
      rw [hvalue] at hc
      cases hc
    | number | long | string | owner | var => cases hvalue
  | some n =>
    rw [hvalue, List.head?_append_of_ne_nil _ (numeral_ne_nil n)] at hc
    exact isNumeral_of_mem_numeral (List.mem_of_mem_head? hc)

/-- **The letters, the number and the ending can be told from each other.** -/
theorem parts_of_chars (h : w.chars = w'.chars) :
    w.letters = w'.letters ∧ w.value? = w'.value? ∧ w.ending = w'.ending := by
  obtain ⟨hletters, hrest⟩ := append_inj_of_span (p := fun c => !isNumeral c)
    (fun c hc => by rw [isNumeral_letters c hc, Bool.not_false])
    (fun c hc => by rw [isNumeral_letters c hc, Bool.not_false])
    (fun c hc => by rw [isNumeral_behind_letters c hc, Bool.not_true])
    (fun c hc => by rw [isNumeral_behind_letters c hc, Bool.not_true]) h
  obtain ⟨hvalue, hending⟩ := append_inj_of_span (fun _ => isNumeral_of_mem_numeral)
    (fun _ => isNumeral_of_mem_numeral)
    (fun c hc => isNumeral_ending c (List.mem_of_mem_head? hc))
    (fun c hc => isNumeral_ending c (List.mem_of_mem_head? hc)) hrest
  exact ⟨hletters, numeral_inj hvalue, hending⟩

/-- **A word can be told by its characters.** -/
theorem eq_of_chars (h : w.chars = w'.chars) : w = w' := by
  obtain ⟨hletters, hvalue, hending⟩ := parts_of_chars h
  cases w with
  | truth b =>
    cases w' with
    | truth b' => cases b <;> cases b' <;> simp_all [letters]
    | number | long | string | owner | var => cases hvalue
  | number | long | string | owner | var => cases w' <;> simp_all [letters, value?, ending]

theorem chars_ne_nil (w : Word) : w.chars ≠ [] := by
  intro h
  obtain ⟨hletters, hrest⟩ := List.append_eq_nil_iff.mp h
  have hvalue := (List.append_eq_nil_iff.mp hrest).1
  cases w with
  | truth value => cases value <;> cases hletters
  | string | owner | var => cases hletters
  | number | long => exact numeral_ne_nil _ hvalue

theorem notMem_marks_letters : ∀ c ∈ w.letters, c ∉ marks := by
  cases w with
  | truth value => cases value <;> simp [letters, marks]
  | number | long | string | owner | var => simp [letters, marks]

/-- There are no marks in a word. -/
theorem notMem_marks_chars : ∀ c ∈ w.chars, c ∉ marks := by
  have hending : ∀ c ∈ w.ending, c ∉ marks := by cases w <;> simp [ending, marks]
  intro c hc
  rcases List.mem_append.mp hc with hc | hc
  · exact notMem_marks_letters c hc
  · rcases List.mem_append.mp hc with hc | hc
    · exact notMem_marks_of_isNumeral (isNumeral_of_mem_numeral hc)
    · exact hending c hc

end Word

/-- The word of a literal, an owner or a variable. -/
def Kind.word? : Kind → Option Word
  | .int16 value _ => some (.number value.toInt)
  | .int32 value => some (.number value.toInt)
  | .int64 value => some (.long value.toInt)
  | .boolean value => some (.truth value)
  | .string index => some (.string index.toNat)
  | .owner code => some (.owner code.toInt)
  | .var target .. => some (.var target.toNat)
  | _ => none

/-- A word with letters and a number. -/
theorem Word.chars_of_ending {w : Word} {n : Int} (hvalue : w.value? = some n)
    (hending : w.ending = []) : w.chars = w.letters ++ n.repr.toList := by
  rw [chars, hvalue, hending, List.append_nil]
  rfl

/-- The text of a literal or an owner is its word. -/
theorem Kind.toList_atom {kind : Kind} {w : Word} {text : String} (hword : kind.word? = some w)
    (hatom : kind.atom? = some text) : text.toList = w.chars := by
  cases kind with
  | boolean value =>
    cases hword
    cases hatom
    cases value <;> rfl
  | string | owner =>
    cases hword
    cases hatom
    rw [Word.chars_of_ending rfl rfl]
    exact String.toList_append
  | int16 | int32 =>
    cases hword
    cases hatom
    rw [Word.chars_of_ending rfl rfl]
    rfl
  | int64 value =>
    cases hword
    cases hatom
    exact String.toList_append
  | var => cases hatom
  | _ => cases hword

/-- **The word shows all of the kind but what is forgotten.** -/
theorem Kind.forget_of_word? {kind : Kind} {w : Word} (hword : kind.word? = some w)
    (hlink : kind.left? = none) : kind.forget = w.kind := by
  cases kind <;> cases hword <;> simp_all [forget, Word.kind, left?]

/-! ## Heads -/

/-- The operators that are not comparisons. -/
def BinaryOp.arithmetic : List BinaryOp :=
  [.add, .sub, .mul, .div, .and, .or, .mod, .rem, .xor, .shl, .shr]

namespace Kind

/-- The kinds that are written in parentheses, without what is forgotten, except calls. -/
def headed : List Kind := List.flatten [
  BinaryOp.arithmetic.map .binary,
  Comparison.all.map fun relation => .binary (.compare relation),
  [.unary .neg .variant, .unary .not .variant],
  [.assign .plain],
  BinaryOp.arithmetic.map fun op => .assign (.compound op),
  [.assign (.increment .add .pre), .assign (.increment .add .post)],
  [.assign (.increment .sub .pre), .assign (.increment .sub .post)],
  [.conditional 0, .switch, .switchCase, .switchDefault, .shortCircuit .and],
  [.whileLoop false, .forLoop, .doUntilLoop, .repeatLoop, .withLoop],
  [.breakStmt, .continueStmt, .returnStmt, .exitStmt, .block]]

variable {kind kind' : Kind}

theorem head_forget (hword : kind.word? = none) : kind.forget.head = kind.head := by
  cases kind with
  | unary op => cases op <;> rfl
  | int16 | int32 | int64 | boolean | string | owner | var => cases hword
  | _ => rfl

theorem nodup_heads : (headed.map head).Nodup := by decide +kernel

theorem notMem_marks_heads : ∀ kind ∈ headed, ∀ c ∈ kind.head.toList, c ∉ marks := by
  have hheads : headed.all (fun kind => kind.head.toList.all fun c => !marks.contains c) =
      true := by decide +kernel
  simpa using hheads

/-- No other head starts like that of a call. -/
theorem not_fn_heads : ∀ kind ∈ headed, ¬ ['f', 'n'] <+: kind.head.toList := by decide +kernel

theorem toList_head_call (target : UInt32) :
    (call target).head.toList = ['f', 'n'] ++ (Int.ofNat target.toNat).repr.toList := by
  show ("fn" ++ target.toNat.repr).toList = _
  rw [String.toList_append]
  rfl

theorem mem_headed (hword : kind.word? = none) (hlegible : kind.legible = true) :
    (∃ target, kind = .call target) ∨ kind.forget ∈ headed := by
  cases kind with
  | call target => exact Or.inl ⟨target, rfl⟩
  | int16 | int32 | int64 | boolean | string | owner | var => cases hword
  | double | float => cases hlegible
  | conditional => exact Or.inr (by decide +kernel : conditional 0 ∈ headed)
  | whileLoop => exact Or.inr (by decide +kernel : whileLoop false ∈ headed)
  | shortCircuit => exact Or.inr (by decide +kernel : shortCircuit .and ∈ headed)
  | unary op =>
    have hunary : ∀ op ∈ [UnaryOp.neg, .not], unary op .variant ∈ headed := by decide +kernel
    exact Or.inr (hunary op (by cases op <;> decide))
  | binary op =>
    right
    cases op with
    | compare relation => cases relation <;> decide +kernel
    | _ => decide +kernel
  | assign op =>
    right
    cases op with
    | plain => decide +kernel
    | compound op =>
      cases op with
      | compare => cases hlegible
      | _ => decide +kernel
    | increment op side =>
      have hop : op = .add ∨ op = .sub := by simpa [legible] using hlegible
      rcases hop with rfl | rfl <;> cases side <;> decide +kernel
  | _ => exact Or.inr (by decide +kernel)

/-- The head of a node in parentheses is a word. -/
theorem notMem_marks_head (hword : kind.word? = none) (hlegible : kind.legible = true) :
    ∀ c ∈ kind.head.toList, c ∉ marks := by
  rcases mem_headed hword hlegible with ⟨target, rfl⟩ | hmem
  · have hfn : ∀ c ∈ ['f', 'n'], c ∉ marks := by simp [marks]
    intro c hc
    rw [toList_head_call] at hc
    rcases List.mem_append.mp hc with hc | hc
    · exact hfn c hc
    · exact notMem_marks_of_isNumeral (isNumeral_of_mem_repr hc)
  · rw [← head_forget hword]
    exact notMem_marks_heads _ hmem

/-- **A node in parentheses can be told by its head**, except for what is forgotten. -/
theorem forget_eq_of_head (hword : kind.word? = none) (hlegible : kind.legible = true)
    (hword' : kind'.word? = none) (hlegible' : kind'.legible = true)
    (h : kind.head = kind'.head) : kind.forget = kind'.forget := by
  have hcall {target : UInt32} {kind : Kind} (hword : kind.word? = none)
      (hmem : kind.forget ∈ headed) : (call target).head ≠ kind.head := by
    intro h
    refine not_fn_heads _ hmem ?_
    rw [head_forget hword, ← h, toList_head_call]
    exact List.prefix_append _ _
  rcases mem_headed hword hlegible with ⟨target, rfl⟩ | hmem
  · rcases mem_headed hword' hlegible' with ⟨target', rfl⟩ | hmem'
    · have hlist := congrArg String.toList h
      rw [toList_head_call, toList_head_call] at hlist
      have hnumber := intRepr_inj (String.toList_inj.mp (List.append_cancel_left hlist))
      rw [UInt32.toNat_inj.mp (Int.ofNat.inj hnumber)]
    · exact absurd h (hcall hword' hmem')
  · rcases mem_headed hword' hlegible' with ⟨target', rfl⟩ | hmem'
    · exact absurd h.symm (hcall hword hmem)
    · rw [← head_forget hword, ← head_forget hword'] at h
      exact List.inj_on_of_nodup_map nodup_heads hmem hmem' h

end Kind

end GmlLift
