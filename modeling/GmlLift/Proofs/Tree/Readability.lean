import GmlLift.Proofs.Tree.Words

/-!
# Texts are uniquely readable

Two legible nodes have the same text only if they unfold to the same tree, except for what no text
shows. The difficulty is where a part of a text ends. A node without an owner ends where a mark
stands that closes it or divides it from what follows, or a point. A point does not end a variable,
though: what stands in front of it is its owner, which can be any expression. So a tree is cut into
`segments`, the owner of the owner first; they are written with points between them and none has an
owner.

* `ReadsBefore`: two texts with rests behind them are equal only if the trees and the rests are.
* `readsBefore_alone`: nodes without owners, from their children.
* `readsBefore_of_segments`: trees, from their segments.

Result: `text_eq_iff`.
-/

namespace GmlLift

/-! ## What is forgotten -/

theorem Kind.textWith_forget (kind : Kind) (owner : Option String) (parts : List String) :
    kind.forget.textWith owner parts = kind.textWith owner parts := by
  cases kind with
  | int16 value =>
    show toString value.toInt32.toInt = toString value.toInt
    rw [Int16.toInt_toInt32]
  | unary op => cases op <;> rfl
  | _ => rfl

namespace Unfolded

mutual

/-- **The tree without what no text shows**: what is forgotten of the kinds, and the marks. -/
def forget : Unfolded → Unfolded
  | node kind _ owner children => node kind.forget false (forgetOwner owner) (forgetAll children)

def forgetOwner : Option Unfolded → Option Unfolded
  | none => none
  | some owner => some owner.forget

def forgetAll : List Unfolded → List Unfolded
  | [] => []
  | u :: rest => u.forget :: forgetAll rest

end

variable {kind kind' : Kind} {duplicated duplicated' : Bool} {owner owner' : Option Unfolded}
  {children children' : List Unfolded} {u v : Unfolded}

theorem forget_node : (node kind duplicated owner children).forget =
    node kind.forget false (owner.map forget) (children.map forget) := by
  have howner : forgetOwner owner = owner.map forget := by cases owner <;> rfl
  have hchildren (us : List Unfolded) : forgetAll us = us.map forget := by
    induction us with
    | nil => rfl
    | cons u rest ih => rw [forgetAll, ih, List.map_cons]
  rw [forget, howner, hchildren]

/-- **What is forgotten is not in the text.** -/
theorem text_forget (h : u.Legible) : u.forget.text = u.text := by
  induction h with
  | @node kind duplicated owner children _ _ _ _ _ _ ihowner ihchildren =>
    have howner : (owner.map forget).map text = owner.map text := by
      cases owner with
      | none => rfl
      | some o => rw [Option.map_some, Option.map_some, Option.map_some, ihowner o rfl]
    have hchildren : (children.map forget).map text = children.map text := by
      rw [List.map_map]
      exact List.map_congr_left ihchildren
    rw [forget_node, text_node, text_node, Kind.textWith_forget, howner, hchildren]

/-! ## Characters -/

/-- The characters of the text. -/
def chars (u : Unfolded) : List Char := u.text.toList

/-- Children in parentheses, each after a blank. -/
def spaced : List (List Char) → List Char
  | [] => []
  | part :: parts => ' ' :: (part ++ spaced parts)

/-- Children in brackets, divided by commas; no brackets if there are none. -/
def bracketed : List (List Char) → List Char
  | [] => []
  | part :: parts => '[' :: ([',', ' '].intercalate (part :: parts) ++ [']'])

theorem toList_joinArguments (texts : List String) :
    (Tree.joinArguments texts).toList = spaced (texts.map String.toList) := by
  induction texts with
  | nil => rfl
  | cons text rest ih =>
    rw [Tree.joinArguments, String.toList_append, String.toList_append, ih]
    rfl

theorem toList_joinIndices (texts : List String) :
    (Tree.joinIndices texts).toList = [',', ' '].intercalate (texts.map String.toList) := by
  induction texts with
  | nil => rfl
  | cons text rest ih =>
    cases rest with
    | nil => rw [Tree.joinIndices, List.map_singleton, List.intercalate_singleton]
    | cons next rest =>
      rw [List.map_cons, List.map_cons, List.intercalate_cons_cons, ← List.map_cons, ← ih,
        Tree.joinIndices, String.toList_append, String.toList_append]
      · rfl
      · nofun

/-- The node is written in parentheses. -/
theorem chars_of_head (hword : kind.word? = none) (hlegible : kind.legible = true) :
    (node kind duplicated owner children).chars =
      '(' :: (kind.head.toList ++ (spaced (children.map chars) ++ [')'])) := by
  have htext : kind.textWith (owner.map text) (children.map text) =
      "(" ++ kind.head ++ Tree.joinArguments (children.map text) ++ ")" := by
    cases kind with
    | int16 | int32 | int64 | boolean | string | owner | var => cases hword
    | double | float => cases hlegible
    | _ => rfl
  rw [chars, text_node, htext, String.toList_append, String.toList_append, String.toList_append,
    toList_joinArguments, List.map_map, List.append_assoc, List.append_assoc]
  rfl

theorem toList_variableText (target : UInt32) (parts : List String) :
    (Tree.variableText none target parts).toList =
      (Word.var target.toNat).chars ++ bracketed (parts.map String.toList) := by
  have hword : ("var" ++ target.toNat.repr).toList = (Word.var target.toNat).chars := by
    rw [Word.chars_of_ending rfl rfl]
    exact String.toList_append
  cases parts with
  | nil =>
    show ("" ++ ("var" ++ target.toNat.repr) ++ "").toList = _
    rw [String.empty_append, String.append_empty, hword]
    exact (List.append_nil _).symm
  | cons part parts =>
    show ("" ++ ("var" ++ target.toNat.repr) ++
      ("[" ++ Tree.joinIndices (part :: parts) ++ "]")).toList = _
    rw [String.empty_append, String.toList_append, hword, String.toList_append,
      String.toList_append, toList_joinIndices]
    rfl

/-- The node is a word, with its indices behind it. -/
theorem chars_of_word {w : Word} (hword : kind.word? = some w)
    (hatom : kind.atom?.isSome = true → children = []) :
    (node kind duplicated none children).chars = w.chars ++ bracketed (children.map chars) := by
  rw [chars, text_node]
  cases htext : kind.atom? with
  | some text =>
    rw [htext] at hatom
    obtain rfl := hatom rfl
    have hlone : kind.textWith (none.map Unfolded.text) [] = text := by
      cases kind with
      | var => cases htext
      | _ => simp only [Kind.textWith, htext]
    rw [List.map_nil, hlone, Kind.toList_atom hword htext]
    exact (List.append_nil _).symm
  | none =>
    cases kind with
    | var target =>
      cases hword
      have hparts := toList_variableText target (children.map text)
      rw [List.map_map] at hparts
      exact hparts
    | int16 | int32 | int64 | boolean | string | owner => cases htext
    | _ => cases hword

/-- The node stands behind its owner. -/
theorem chars_of_owner (hvar : kind.isVariable = true) :
    (node kind duplicated (some u) children).chars =
      u.chars ++ '.' :: (node kind duplicated none children).chars := by
  cases kind with
  | var target =>
    have hbehind (text : String) (parts : List String) :
        Tree.variableText (some text) target parts =
          text ++ ("." ++ Tree.variableText none target parts) := by
      simp only [Tree.variableText, String.empty_append, String.append_assoc]
    rw [chars, text_node]
    show (Tree.variableText (some u.text) target _).toList = _
    rw [hbehind, String.toList_append, String.toList_append, chars, chars, text_node]
    rfl
  | _ => cases hvar

/-! ## Reading lists -/

/-- The marks that end a tree: they close what it is in or divide it from what follows. -/
def ends : List Char := [' ', ')', ']', ',']

/-- The marks that end a node without its owner. -/
def pauses : List Char := '.' :: ends

/-- A list of characters that starts with one of these, or not at all. -/
def Starts (stops r : List Char) : Prop := ∀ c ∈ r.head?, c ∈ stops

/-- **Two texts with rests behind them are equal only if the trees and the rests are**, except for
what is forgotten. The rests start with stops. -/
def ReadsBefore (stops : List Char) (u v : Unfolded) : Prop :=
  ∀ r r', Starts stops r → Starts stops r' → u.chars ++ r = v.chars ++ r' →
    u.forget = v.forget ∧ r = r'

theorem starts_cons {stops r : List Char} {c : Char} (h : c ∈ stops) : Starts stops (c :: r) := by
  intro d hd
  cases hd
  exact h

variable {us vs : List Unfolded} {r r' : List Char}

theorem Starts.ne_bracket (h : Starts pauses r) {inner : List Char} : r ≠ '[' :: inner := by
  rintro rfl
  exact absurd (h _ rfl) (by decide)

/-- **Trees with separators between them are read one after the other**, up to a rest that does not
start like a separator. -/
theorem intercalate_inj {stops rest : List Char} {c : Char} (hc : c ∈ stops)
    (hreads : ∀ u ∈ us, ∀ v ∈ vs, ReadsBefore stops u v) (hus : us ≠ []) (hvs : vs ≠ [])
    (hr : Starts stops r) (hr' : Starts stops r') (hrest : r.head? ≠ some c)
    (hrest' : r'.head? ≠ some c)
    (h : (c :: rest).intercalate (us.map chars) ++ r =
      (c :: rest).intercalate (vs.map chars) ++ r') :
    us.map forget = vs.map forget ∧ r = r' := by
  induction us generalizing vs with
  | nil => exact absurd rfl hus
  | cons u us ih =>
    cases vs with
    | nil => exact absurd rfl hvs
    | cons v vs =>
      have hread := hreads u List.mem_cons_self v List.mem_cons_self
      cases us with
      | nil =>
        cases vs with
        | nil =>
          simp only [List.map_cons, List.map_nil, List.intercalate_singleton] at h
          obtain ⟨heq, hrests⟩ := hread r r' hr hr' h
          exact ⟨by simp [heq], hrests⟩
        | cons v₁ vs =>
          simp only [List.map_cons, List.map_nil, List.intercalate_singleton,
            List.intercalate_cons_cons, List.append_assoc, List.cons_append] at h
          obtain ⟨-, rfl⟩ := hread _ _ hr (starts_cons hc) h
          exact absurd rfl hrest
      | cons u₁ us =>
        cases vs with
        | nil =>
          simp only [List.map_cons, List.map_nil, List.intercalate_singleton,
            List.intercalate_cons_cons, List.append_assoc, List.cons_append] at h
          obtain ⟨-, rfl⟩ := hread _ _ (starts_cons hc) hr' h
          exact absurd rfl hrest'
        | cons v₁ vs =>
          simp only [List.map_cons, List.intercalate_cons_cons, List.append_assoc,
            List.cons_append] at h
          obtain ⟨heq, hrests⟩ := hread _ _ (starts_cons hc) (starts_cons hc) h
          have htails := List.append_cancel_left (List.cons.inj hrests).2
          obtain ⟨heqs, hfinal⟩ := ih
            (fun x hx y hy => hreads x (List.mem_cons_of_mem _ hx) y (List.mem_cons_of_mem _ hy))
            (List.cons_ne_nil _ _) (List.cons_ne_nil _ _) htails
          exact ⟨by rw [List.map_cons, heq, heqs, ← List.map_cons], hfinal⟩

theorem starts_spaced (parts : List (List Char)) (r : List Char) :
    Starts ends (spaced parts ++ ')' :: r) := by
  cases parts with
  | nil => exact starts_cons (by decide)
  | cons part parts => exact starts_cons (by decide)

/-- **Children in parentheses are read one after the other.** -/
theorem spaced_inj (hreads : ∀ u ∈ us, ∀ v ∈ vs, ReadsBefore ends u v)
    (h : spaced (us.map chars) ++ ')' :: r = spaced (vs.map chars) ++ ')' :: r') :
    us.map forget = vs.map forget ∧ r = r' := by
  induction us generalizing vs with
  | nil =>
    cases vs with
    | nil => exact ⟨rfl, (List.cons.inj h).2⟩
    | cons v vs => exact absurd (List.cons.inj h).1 (by decide)
  | cons u us ih =>
    cases vs with
    | nil => exact absurd (List.cons.inj h).1 (by decide)
    | cons v vs =>
      simp only [List.map_cons, spaced, List.cons_append, List.append_assoc, List.cons.injEq,
        true_and] at h
      obtain ⟨heq, hrests⟩ := hreads u List.mem_cons_self v List.mem_cons_self _ _
        (starts_spaced _ r) (starts_spaced _ r') h
      obtain ⟨heqs, hfinal⟩ := ih
        (fun x hx y hy => hreads x (List.mem_cons_of_mem _ hx) y (List.mem_cons_of_mem _ hy)) hrests
      exact ⟨by rw [List.map_cons, heq, heqs, ← List.map_cons], hfinal⟩

/-- **Indices are read one after the other**, and no indices can be told from some. -/
theorem bracketed_inj (hreads : ∀ u ∈ us, ∀ v ∈ vs, ReadsBefore ends u v)
    (hr : Starts pauses r) (hr' : Starts pauses r')
    (h : bracketed (us.map chars) ++ r = bracketed (vs.map chars) ++ r') :
    us.map forget = vs.map forget ∧ r = r' := by
  cases us with
  | nil =>
    cases vs with
    | nil => exact ⟨rfl, h⟩
    | cons v vs =>
      exact absurd h hr.ne_bracket
  | cons u us =>
    cases vs with
    | nil =>
      exact absurd h.symm hr'.ne_bracket
    | cons v vs =>
      simp only [List.map_cons, bracketed, List.cons_append, List.append_assoc, List.nil_append,
        List.cons.injEq, true_and] at h
      obtain ⟨heqs, hfinal⟩ := intercalate_inj (by decide) hreads (List.cons_ne_nil u us)
        (List.cons_ne_nil v vs) (starts_cons (by decide)) (starts_cons (by decide)) (by simp)
        (by simp) h
      exact ⟨heqs, (List.cons.inj hfinal).2⟩

/-! ## Reading nodes -/

theorem Starts.mem_marks {stops : List Char} (h : Starts stops r) (hstops : stops ⊆ marks) :
    ∀ c ∈ r.head?, c ∈ marks :=
  fun c hc => hstops (h c hc)

/-- Behind a word stands a mark. -/
theorem mem_marks_bracketed (parts : List (List Char)) (hr : Starts pauses r) :
    ∀ c ∈ (bracketed parts ++ r).head?, c ∈ marks := by
  cases parts with
  | nil => exact hr.mem_marks (by decide)
  | cons part parts =>
    intro c hc
    obtain rfl : '[' = c := Option.some.inj hc
    decide

/-- A word does not start with a parenthesis. -/
theorem word_ne_paren (w : Word) (rest inner : List Char) : w.chars ++ rest ≠ '(' :: inner := by
  intro h
  cases hchars : w.chars with
  | nil => exact w.chars_ne_nil hchars
  | cons c cs =>
    rw [hchars] at h
    obtain rfl : c = '(' := (List.cons.inj h).1
    refine w.notMem_marks_chars '(' ?_ (by decide)
    rw [hchars]
    exact List.mem_cons_self

/-- **Nodes without owners are read from their children.** -/
theorem readsBefore_alone (hu : (node kind duplicated none children).Legible)
    (hv : (node kind' duplicated' none children').Legible)
    (hreads : ∀ u ∈ children, ∀ v ∈ children', ReadsBefore ends u v) :
    ReadsBefore pauses (node kind duplicated none children)
      (node kind' duplicated' none children') := by
  obtain ⟨hkind, hlink, hatom, -, -, -⟩ := hu
  obtain ⟨hkind', hlink', hatom', -, -, -⟩ := hv
  intro r r' hr hr' h
  rw [forget_node, forget_node]
  cases hword : kind.word? with
  | some w =>
    cases hword' : kind'.word? with
    | some w' =>
      rw [chars_of_word hword hatom, chars_of_word hword' hatom', List.append_assoc,
        List.append_assoc] at h
      obtain ⟨hw, hrest⟩ := append_inj_of_marks w.notMem_marks_chars w'.notMem_marks_chars
        (mem_marks_bracketed _ hr) (mem_marks_bracketed _ hr') h
      obtain rfl := Word.eq_of_chars hw
      obtain ⟨hparts, hfinal⟩ := bracketed_inj hreads hr hr' hrest
      rw [Kind.forget_of_word? hword hlink, Kind.forget_of_word? hword' hlink', hparts]
      exact ⟨rfl, hfinal⟩
    | none =>
      rw [chars_of_word hword hatom, chars_of_head hword' hkind', List.append_assoc] at h
      exact absurd h (word_ne_paren w _ _)
  | none =>
    cases hword' : kind'.word? with
    | some w' =>
      rw [chars_of_head hword hkind, chars_of_word hword' hatom', List.append_assoc] at h
      exact absurd h.symm (word_ne_paren w' _ _)
    | none =>
      rw [chars_of_head hword hkind, chars_of_head hword' hkind'] at h
      simp only [List.cons_append, List.append_assoc, List.nil_append, List.cons.injEq,
        true_and] at h
      obtain ⟨hhead, hrest⟩ := append_inj_of_marks (Kind.notMem_marks_head hword hkind)
        (Kind.notMem_marks_head hword' hkind') ((starts_spaced _ r).mem_marks (by decide))
        ((starts_spaced _ r').mem_marks (by decide)) h
      obtain ⟨hparts, hfinal⟩ := spaced_inj hreads hrest
      rw [Kind.forget_eq_of_head hword hkind hword' hkind' (String.toList_inj.mp hhead), hparts]
      exact ⟨rfl, hfinal⟩

/-! ## Segments -/

/-- **The owners of a node, the outermost first, and the node itself**, each without its owner. -/
def segments : Unfolded → List Unfolded
  | node kind duplicated none children => [node kind duplicated none children]
  | node kind duplicated (some owner) children =>
    owner.segments ++ [node kind duplicated none children]

/-- The node with another owner. -/
def attach (owner : Option Unfolded) : Unfolded → Option Unfolded
  | node kind duplicated _ children => some (node kind duplicated owner children)

/-- A tree is its segments, attached one to the other. -/
theorem foldl_attach_segments (u : Unfolded) : u.segments.foldl attach none = some u := by
  fun_induction segments u with
  | case1 kind duplicated children => rfl
  | case2 kind duplicated owner children ih =>
    rw [List.foldl_append, ih]
    rfl

theorem segments_forget (u : Unfolded) : u.forget.segments = u.segments.map forget := by
  fun_induction segments u with
  | case1 kind duplicated children => simp [forget_node, segments]
  | case2 kind duplicated owner children ih => simp [forget_node, segments, ih]

/-- **The segments show all of the tree.** -/
theorem forget_eq_of_segments (h : u.segments.map forget = v.segments.map forget) :
    u.forget = v.forget := by
  refine Option.some.inj ?_
  rw [← foldl_attach_segments u.forget, ← foldl_attach_segments v.forget, segments_forget,
    segments_forget, h]

theorem segments_ne_nil (u : Unfolded) : u.segments ≠ [] := by
  fun_induction segments u <;> simp

theorem legible_alone (h : (node kind duplicated owner children).Legible) :
    (node kind duplicated none children).Legible := by
  obtain ⟨hkind, hlink, hatom, -, -, hchildren⟩ := h
  exact .node hkind hlink hatom (by simp) (by simp) hchildren

/-- A segment is legible and has no owner. -/
theorem exists_of_mem_segments (hu : u.Legible) {s : Unfolded} (hs : s ∈ u.segments) :
    s.Legible ∧ ∃ kind duplicated children, s = node kind duplicated none children := by
  fun_induction segments u with
  | case1 kind duplicated children =>
    obtain rfl := List.mem_singleton.mp hs
    exact ⟨hu, kind, duplicated, children, rfl⟩
  | case2 kind duplicated owner children ih =>
    rcases List.mem_append.mp hs with hs | hs
    · obtain ⟨-, -, -, -, howner, -⟩ := hu
      exact ih (howner owner rfl) hs
    · obtain rfl := List.mem_singleton.mp hs
      exact ⟨legible_alone hu, kind, duplicated, children, rfl⟩

theorem intercalate_concat (c : Char) {parts : List (List Char)} (hparts : parts ≠ [])
    (last : List Char) :
    [c].intercalate (parts ++ [last]) = [c].intercalate parts ++ c :: last := by
  induction parts with
  | nil => exact absurd rfl hparts
  | cons part parts ih =>
    cases parts with
    | nil => simp [List.intercalate_cons_cons]
    | cons next parts =>
      have hrest := ih (List.cons_ne_nil _ _)
      rw [List.cons_append] at hrest
      rw [List.cons_append, List.cons_append, List.intercalate_cons_cons, hrest,
        List.intercalate_cons_cons, List.append_assoc, List.append_assoc, List.append_assoc]

/-- The segments are written with points between them. -/
theorem chars_eq_intercalate (hu : u.Legible) :
    u.chars = ['.'].intercalate (u.segments.map chars) := by
  fun_induction segments u with
  | case1 kind duplicated children => rw [List.map_singleton, List.intercalate_singleton]
  | case2 kind duplicated owner children ih =>
    obtain ⟨-, -, -, howns, howner, -⟩ := hu
    have hne : owner.segments.map chars ≠ [] := by simp [segments_ne_nil]
    rw [chars_of_owner (howns rfl), ih (howner owner rfl), List.map_append, List.map_singleton,
      intercalate_concat '.' hne]

/-- **Trees are read from their segments.** -/
theorem readsBefore_of_segments (hu : u.Legible) (hv : v.Legible)
    (hreads : ∀ s ∈ u.segments, ∀ s' ∈ v.segments, ReadsBefore pauses s s') :
    ReadsBefore ends u v := by
  intro r r' hr hr' h
  have hpauses {r : List Char} (hr : Starts ends r) : Starts pauses r :=
    fun c hc => List.mem_cons_of_mem _ (hr c hc)
  have hpoint {r : List Char} (hr : Starts ends r) : r.head? ≠ some '.' :=
    fun h => absurd (hr '.' h) (by decide)
  rw [chars_eq_intercalate hu, chars_eq_intercalate hv] at h
  obtain ⟨heqs, hfinal⟩ := intercalate_inj (by decide) hreads u.segments_ne_nil v.segments_ne_nil
    (hpauses hr) (hpauses hr') (hpoint hr) (hpoint hr') h
  exact ⟨forget_eq_of_segments heqs, hfinal⟩

/-- **A segment of a legible tree is read like one of any other.** -/
theorem readsBefore_segments (hu : u.Legible) :
    ∀ v : Unfolded, v.Legible → ∀ s ∈ u.segments, ∀ s' ∈ v.segments, ReadsBefore pauses s s' := by
  induction hu with
  | @node kind duplicated owner children hkind hlink hatom howns howner hchildren ihowner
      ihchildren =>
    intro v hv s hs s' hs'
    have hnode : ReadsBefore pauses (node kind duplicated none children) s' := by
      obtain ⟨hlegible, kind', duplicated', children', rfl⟩ := exists_of_mem_segments hv hs'
      refine readsBefore_alone (legible_alone (.node hkind hlink hatom howns howner hchildren))
        hlegible fun x hx y hy => ?_
      obtain ⟨-, -, -, -, -, hchildren'⟩ := hlegible
      exact readsBefore_of_segments (hchildren x hx) (hchildren' y hy)
        (ihchildren x hx y (hchildren' y hy))
    cases owner with
    | none =>
      obtain rfl := List.mem_singleton.mp hs
      exact hnode
    | some owner =>
      rcases List.mem_append.mp hs with hs | hs
      · exact ihowner owner rfl v hv s hs s' hs'
      · obtain rfl := List.mem_singleton.mp hs
        exact hnode

/-- **Legible trees with equal texts are equal**, except for what no text shows. -/
theorem text_eq_text_iff (hu : u.Legible) (hv : v.Legible) :
    u.text = v.text ↔ u.forget = v.forget := by
  constructor
  · intro h
    have hreads := readsBefore_of_segments hu hv (readsBefore_segments hu v hv)
    exact (hreads [] [] (by simp [Starts]) (by simp [Starts]) (by simp [chars, h])).1
  · intro h
    rw [← text_forget hu, ← text_forget hv, h]

end Unfolded

/-- **Texts are uniquely readable.** Two nodes, of two trees, whose references lead to legible nodes
only can be unfolded and have texts. The texts are equal exactly if the unfolded trees are, except
for what no text shows. -/
theorem Tree.text_eq_iff {t t' : Tree} {id id' : NodeId} (h : t.Legible id) (h' : t'.Legible id') :
    ∃ u u' text text', t.unfold id = some u ∧ t'.unfold id' = some u' ∧
      t.text id = .ok text ∧ t'.text id' = .ok text' ∧
      (text = text' ↔ u.forget = u'.forget) := by
  obtain ⟨u, hunfold, hu⟩ := h.exists_unfold
  obtain ⟨u', hunfold', hu'⟩ := h'.exists_unfold
  exact ⟨u, u', u.text, u'.text, hunfold, hunfold', textWithin_of_unfoldWithin hunfold,
    textWithin_of_unfoldWithin hunfold', Unfolded.text_eq_text_iff hu hu'⟩

/-- A sum of an element and its index, with short numbers in the one tree and with long ones and
another addressing in the other: `(+ inst-1.var3[5] 5)`. -/
theorem Tree.text_eq_iff_sum :
    let sum (number : Kind) (addressing : Addressing) : Tree :=
      ⟨#[{ kind := .block }, { kind := number }, { kind := .owner (-1) },
        { kind := .var 3 addressing (some ⟨2⟩), children := [⟨1⟩] },
        { kind := .binary .add, children := [⟨3⟩, ⟨1⟩] }]⟩
    let t := sum (.int16 5 .pushI) .normal
    let t' := sum (.int32 5) .array
    t.Legible ⟨4⟩ ∧ t'.Legible ⟨4⟩ ∧ t.text ⟨4⟩ = .ok "(+ inst-1.var3[5] 5)" ∧
      t'.text ⟨4⟩ = .ok "(+ inst-1.var3[5] 5)" ∧
      ∃ u u', t.unfold ⟨4⟩ = some u ∧ t'.unfold ⟨4⟩ = some u' ∧ u.forget = u'.forget := by
  intro sum t t'
  have h : t.Legible ⟨4⟩ := legible_of_older (by decide +kernel : 4 < t.size) (by decide +kernel)
  have h' : t'.Legible ⟨4⟩ := legible_of_older (by decide +kernel : 4 < t'.size) (by decide +kernel)
  have htext : t.text ⟨4⟩ = .ok "(+ inst-1.var3[5] 5)" := by decide +kernel
  have htext' : t'.text ⟨4⟩ = .ok "(+ inst-1.var3[5] 5)" := by decide +kernel
  obtain ⟨u, u', text, text', hu, hu', hok, hok', hiff⟩ := text_eq_iff h h'
  have heq : text = text' := by
    rw [htext] at hok
    rw [htext'] at hok'
    exact (Except.ok.inj hok).symm.trans (Except.ok.inj hok')
  exact ⟨h, h', htext, htext', u, u', hu, hu', hiff.mp heq⟩

end GmlLift
