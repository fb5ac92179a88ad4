import Sigil.Print.SExpr
import Sigil.Proofs.Json.Read

/-!
# Data

What s-expressions are made of: quoted texts, and rules with data behind them, some of which carry a
label. The text of a datum can be read in one way only. Whatever stands behind it, the datum ends
where it ends: a quoted text at its quotation mark, a rule at its parenthesis, and a label is
followed by a datum.

## Main definitions

* `SExpr.Datum`, `SExpr.Datum.text`: data and their texts.
* `SExpr.Datum.IsProper`: the rules and labels in a datum are words.

## Main results

* `SExpr.Datum.marked_unique`: data with a mark in front of each are read in one way only.
* `SExpr.Datum.IsProper.unique`: so is a single datum, whatever stands behind it.
* `SExpr.Datum.joined_injective`: lines of data determine the data.
-/

namespace Sigil.SExpr

/-- A part of an s-expression. -/
inductive Datum where
  | quoted (s : String)
  | labelled (label : String) (part : Datum)
  | node (rule : String) (parts : List Datum)

namespace Datum

mutual

/-- The text of a datum. -/
def text : Datum → String
  | quoted s => Json.quoted s
  | labelled label part => label ++ ": " ++ text part
  | node rule parts => SExpr.parenthesized rule (texts parts)

/-- The texts of data. -/
def texts : List Datum → List String
  | [] => []
  | d :: ds => text d :: texts ds

end

/-- The texts of data are theirs one by one. -/
theorem texts_eq (ds : List Datum) : texts ds = ds.map text := by
  induction ds with
  | nil => rfl
  | cons d ds ih => rw [texts, ih, List.map_cons]

/-- A form is its rule and its parts in parentheses. -/
theorem text_node (rule : String) (ds : List Datum) :
    (node rule ds).text = SExpr.parenthesized rule (ds.map text) := by
  rw [text, texts_eq]

/-- The characters of data, with a mark in front of each. -/
def marked (mark : Char) (ds : List Datum) : List Char :=
  ds.flatMap fun d => mark :: d.text.toList

/-- A label is in front of its datum, behind a colon and a blank. -/
theorem toList_labelled (label : String) (d : Datum) :
    (labelled label d).text.toList = label.toList ++ ':' :: ' ' :: d.text.toList := by
  simp [text]

/-- The characters of a form. -/
theorem toList_node (rule : String) (ds : List Datum) :
    (node rule ds).text.toList = '(' :: (rule.toList ++ (marked ' ' ds ++ [')'])) := by
  simp [text_node, SExpr.parenthesized, Text.toList_joined, List.flatMap_map, marked]

/-! ### Words -/

/-- A character of a word. -/
def isLetter (c : Char) : Bool :=
  c.isLower || c = '_'

/-- The text is made of small letters and underscores. -/
def IsWord (s : String) : Prop :=
  s.toList ≠ [] ∧ ∀ c ∈ s.toList, isLetter c = true

instance (s : String) : Decidable (IsWord s) :=
  decidable_of_iff (s.toList ≠ [] ∧ s.toList.all isLetter = true) (by simp [IsWord])

/-- A word ends in front of what is no letter. -/
theorem IsWord.unique {s s' : String} {r r' : List Char} (hs : IsWord s) (hs' : IsWord s')
    (hr : ∀ c ∈ r.head?, isLetter c = false) (hr' : ∀ c ∈ r'.head?, isLetter c = false)
    (h : s.toList ++ r = s'.toList ++ r') : s = s' ∧ r = r' := by
  have htake {s : String} {r : List Char} (hs : IsWord s)
      (hr : ∀ c ∈ r.head?, isLetter c = false) : (s.toList ++ r).takeWhile isLetter = s.toList := by
    have hrest : r.takeWhile isLetter = [] := by
      cases r with
      | nil => rfl
      | cons c r => simp [hr c rfl]
    rw [List.takeWhile_append_of_pos hs.2, hrest, List.append_nil]
  have hword : s.toList = s'.toList := by
    rw [← htake hs hr, h, htake hs' hr']
  rw [hword] at h
  exact ⟨String.toList_inj.1 hword, List.append_cancel_left h⟩

/-- The rules and the labels in the datum are words. -/
inductive IsProper : Datum → Prop
  | quoted (s : String) : IsProper (quoted s)
  | labelled {label : String} {d : Datum} (hlabel : IsWord label) (h : IsProper d) :
      IsProper (labelled label d)
  | node {rule : String} {ds : List Datum} (hrule : IsWord rule) (h : ∀ d ∈ ds, IsProper d) :
      IsProper (node rule ds)

/-! ### Unique reading -/

/-- The text of the datum in front of any text is that of no other proper datum. -/
def IsUnique (d : Datum) : Prop :=
  ∀ e r r', e.IsProper → d.text.toList ++ r = e.text.toList ++ r' → d = e ∧ r = r'

/-- Data with a mark in front of each end where the mark does not follow. -/
theorem marked_unique {mark : Char} {ds es : List Datum} {r r' : List Char}
    (hds : ∀ d ∈ ds, d.IsUnique) (hes : ∀ e ∈ es, e.IsProper) (hr : mark ∉ r.head?)
    (hr' : mark ∉ r'.head?) (h : marked mark ds ++ r = marked mark es ++ r') :
    ds = es ∧ r = r' := by
  induction ds generalizing es with
  | nil =>
      cases es with
      | nil => exact ⟨rfl, h⟩
      | cons e es =>
          subst h
          exact absurd rfl hr
  | cons d ds ih =>
      cases es with
      | nil =>
          subst h
          exact absurd rfl hr'
      | cons e es =>
          obtain ⟨hd, hds⟩ := List.forall_mem_cons.1 hds
          obtain ⟨he, hes'⟩ := List.forall_mem_cons.1 hes
          simp only [marked, List.flatMap_cons, List.cons_append, List.append_assoc,
            List.cons.injEq, true_and] at h
          obtain ⟨rfl, hbehind⟩ := hd e _ _ he h
          obtain ⟨rfl, hrest⟩ := ih hds hes' hbehind
          exact ⟨rfl, hrest⟩

/-- The character may stand at the start of such a datum. -/
def opens (c : Char) : Datum → Bool
  | quoted _ => c = '"'
  | labelled _ _ => isLetter c
  | node _ _ => c = '('

/-- A datum is opened by its first character. -/
theorem IsProper.opens {d : Datum} (h : d.IsProper) :
    ∃ c cs, d.text.toList = c :: cs ∧ d.opens c = true := by
  cases h with
  | quoted s => exact ⟨'"', _, String.toList_ofList, rfl⟩
  | @labelled label d hlabel _ =>
      obtain ⟨hne, hletters⟩ := hlabel
      obtain ⟨c, cs, hcs⟩ := List.exists_cons_of_ne_nil hne
      exact ⟨c, _, by rw [toList_labelled, hcs, List.cons_append], hletters c (by simp [hcs])⟩
  | node => exact ⟨'(', _, toList_node _ _, rfl⟩

/-- Data with the same text start with the same character. -/
theorem exists_opens {d e : Datum} {r r' : List Char} (hd : d.IsProper) (he : e.IsProper)
    (h : d.text.toList ++ r = e.text.toList ++ r') :
    ∃ c, d.opens c = true ∧ e.opens c = true := by
  obtain ⟨c, cs, hcs, hc⟩ := hd.opens
  obtain ⟨c', cs', hcs', hc'⟩ := he.opens
  rw [hcs, hcs', List.cons_append, List.cons_append] at h
  exact ⟨c, hc, (List.cons.inj h).1 ▸ hc'⟩

/-- The marks of forms are no letters. -/
theorem not_isLetter : isLetter '"' = false ∧ isLetter '(' = false ∧ isLetter ':' = false ∧
    isLetter ' ' = false ∧ isLetter ')' = false := by
  decide

/-- Behind a rule there is a blank or the closing parenthesis. -/
theorem head_marked (ds : List Datum) (r : List Char) :
    ∀ c ∈ (marked ' ' ds ++ ')' :: r).head?, isLetter c = false := by
  cases ds <;> simp [marked, not_isLetter]

/-- The text of a proper datum can be read in one way only, whatever stands behind it. -/
theorem IsProper.unique {d : Datum} (hd : d.IsProper) : d.IsUnique := by
  induction hd with
  | quoted s =>
      intro e r r' he h
      obtain ⟨c, hc, hc'⟩ := exists_opens (.quoted s) he h
      cases he with
      | quoted s' =>
          have hread := Json.Reader.text_quoted s r
          change (Json.quoted s).toList ++ r = (Json.quoted s').toList ++ r' at h
          rw [h, Json.Reader.text_quoted] at hread
          cases hread
          exact ⟨rfl, rfl⟩
      | labelled => simp_all [Datum.opens, not_isLetter]
      | node => simp_all [Datum.opens]
  | @labelled label d hlabel hd ih =>
      intro e r r' he h
      obtain ⟨c, hc, hc'⟩ := exists_opens (.labelled hlabel hd) he h
      cases he with
      | quoted => simp_all [Datum.opens, not_isLetter]
      | labelled hlabel' he =>
          simp only [toList_labelled, List.append_assoc, List.cons_append] at h
          obtain ⟨rfl, hbehind⟩ := hlabel.unique hlabel' (by simp [not_isLetter])
            (by simp [not_isLetter]) h
          simp only [List.cons.injEq, true_and] at hbehind
          obtain ⟨rfl, rfl⟩ := ih _ _ _ he hbehind
          exact ⟨rfl, rfl⟩
      | node => simp_all [Datum.opens, not_isLetter]
  | @node rule ds hrule hds ih =>
      intro e r r' he h
      obtain ⟨c, hc, hc'⟩ := exists_opens (.node hrule hds) he h
      cases he with
      | quoted => simp_all [Datum.opens]
      | labelled => simp_all [Datum.opens, not_isLetter]
      | node hrule' hes =>
          simp only [toList_node, List.append_assoc, List.cons_append, List.nil_append,
            List.cons.injEq, true_and] at h
          obtain ⟨rfl, hparts⟩ := hrule.unique hrule' (head_marked _ _) (head_marked _ _) h
          obtain ⟨rfl, hend⟩ := marked_unique ih hes (by simp) (by simp) hparts
          exact ⟨rfl, (List.cons.inj hend).2⟩

/-- Lines of proper data are read in one way only. -/
theorem joined_injective {ds es : List Datum} (hds : ∀ d ∈ ds, d.IsProper)
    (hes : ∀ e ∈ es, e.IsProper) (hne : ds ≠ []) (hne' : es ≠ [])
    (h : Text.joined "\n" (ds.map text) = Text.joined "\n" (es.map text)) : ds = es := by
  obtain ⟨d, ds, rfl⟩ := List.exists_cons_of_ne_nil hne
  obtain ⟨e, es, rfl⟩ := List.exists_cons_of_ne_nil hne'
  have hmarked (d : Datum) (ds : List Datum) :
      (Text.joined "\n" ((d :: ds).map text)).toList = d.text.toList ++ marked '\n' ds := by
    rw [List.map_cons, Text.toList_joined, List.flatMap_map]
    rfl
  obtain ⟨hd, hds'⟩ := List.forall_mem_cons.1 hds
  obtain ⟨he, hes'⟩ := List.forall_mem_cons.1 hes
  have hlists := congrArg String.toList h
  rw [hmarked, hmarked] at hlists
  obtain ⟨rfl, hrest⟩ := hd.unique e _ _ he hlists
  have hend : '\n' ∉ ([] : List Char).head? := by simp
  have hlines : marked '\n' ds ++ [] = marked '\n' es ++ [] := by rw [hrest]
  obtain ⟨rfl, -⟩ := marked_unique (fun f hf => (hds' f hf).unique) hes' hend hend hlines
  rfl

end Datum

end Sigil.SExpr
