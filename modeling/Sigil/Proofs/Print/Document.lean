import Sigil.Print.Document
import Sigil.Proofs.Json.RoundTrip
import Sigil.Proofs.Tree.Parts

/-!
# Documents of trees

A document is made for every tree, whether or not the language has such trees, and nothing of the
tree is lost in it: the tree can be rebuilt from the members of the objects, and a document from its
text. So trees that differ in anything, be it a single place, have different texts.

A document holds the name of a kind. A kind that was made from a name is found again under it; the
trees whose kinds are all of this form are all that a name-based source of trees can give.

## Main definitions

* `Tree.ofJson`: the tree that a document is of.
* `Tree.IsNamed`: every kind in a tree is the one that its name stands for.

## Main results

* `Tree.ofJson_toJson`: the tree of the document of a tree is the tree.
* `Tree.write_toJson_lossless`: the text of a tree is ASCII and determines it.
-/

namespace Sigil.Tree

mutual

/-- The tree that is rebuilt from a document with the six members of a node. -/
def ofJson : Json → Option Node
  | .object [(a, .text kind), (b, value), (c, .number line), (d, .number col),
      (e, .array [.number start, .number stop]), (f, .array children)] =>
    if [a, b, c, d, e, f] = ["kind", "value", "line", "col", "span", "children"] then do
      let value ← match value with
        | .null => some .none
        | .text s => some (.text s)
        | value => .node <$> ofJson value
      let children ← ofJsons children
      return ⟨.ofName kind, value, children, ⟨⟨start, line, col⟩, stop⟩⟩
    else none
  | _ => none
termination_by structural j => j

/-- The trees that are rebuilt from documents. -/
def ofJsons : List Json → Option (List Node)
  | [] => some []
  | j :: js => do
    let t ← ofJson j
    let ts ← ofJsons js
    return t :: ts
termination_by structural js => js

end

/-- Every kind in the tree is the one that its name stands for. -/
def IsNamed (t : Node) : Prop :=
  ∀ u ∈ t.walk, ∃ name, u.kind = .ofName name

/-- A node that is made from a name and named trees is a named tree. -/
theorem IsNamed.mk (name : String) {value : Value Node} {children : List Node} {mark : Extent}
    (hvalue : ∀ t, value = .node t → t.IsNamed) (hchildren : ∀ t ∈ children, t.IsNamed) :
    IsNamed ⟨.ofName name, value, children, mark⟩ := by
  refine forall_mem_walk.2 ⟨⟨name, rfl⟩, fun c hc => ?_⟩
  rcases mem_subnodes.1 hc with hc | hc
  · exact hvalue c hc
  · exact hchildren c hc

theorem ofJsons_toJsons {ts : List Node} (h : ∀ t ∈ ts, ofJson t.toJson = some t) :
    ofJsons (toJsons ts) = some ts := by
  induction ts with
  | nil => rfl
  | cons t ts ih =>
      obtain ⟨ht, hts⟩ := List.forall_mem_cons.1 h
      rw [toJsons, ofJsons, ht, ih hts]
      rfl

/-- The document of a tree is an object, and so no document of a text or of nothing. -/
theorem exists_members (t : Node) : ∃ members, t.toJson = .object members := by
  obtain ⟨kind, value, children, mark⟩ := t
  rw [toJson.eq_def]
  exact ⟨_, rfl⟩

/-- The tree that is rebuilt from the document of a tree is the tree. -/
theorem ofJson_toJson {t : Node} (h : t.IsNamed) : ofJson t.toJson = some t := by
  induction t using induct with
  | step kind value children mark hvalue hchildren =>
      obtain ⟨⟨name, hname⟩, hbelow⟩ := forall_mem_walk.1 h
      have hkind : NodeKind.ofName kind.name = kind := by
        have hname : kind = .ofName name := hname
        rw [hname, NodeKind.name_ofName]
      have hall := ofJsons_toJsons fun t ht =>
        hchildren t ht (hbelow t (mem_subnodes.2 (.inr ht)))
      cases value with
      | none =>
          simp only [toJson, ofJson, hall, hkind, if_true, Option.bind_eq_bind, Option.bind_some]
          rfl
      | text s =>
          simp only [toJson, ofJson, hall, hkind, if_true, Option.bind_eq_bind, Option.bind_some]
          rfl
      | node t =>
          have ht := hvalue t rfl (hbelow t (mem_subnodes.2 (.inl rfl)))
          obtain ⟨members, hmembers⟩ := exists_members t
          rw [hmembers] at ht
          simp only [toJson, hmembers, ofJson, ht, hall, hkind, if_true, Option.bind_eq_bind,
            Option.map_eq_map, Option.map_some, Option.bind_some]
          rfl

/-- The text of a tree is ASCII, and the tree can be rebuilt from it, with every indentation and
without one. So trees have the same text exactly if they are the same, places included. -/
theorem write_toJson_lossless (indentation : Option Int) (t u : Node) (ht : t.IsNamed)
    (hu : u.IsNamed) :
    Json.IsAscii (t.toJson.write (.ofIndentation indentation)) ∧
    (Json.read (t.toJson.write (.ofIndentation indentation)) >>= ofJson) = some t ∧
    (t.toJson.write (.ofIndentation indentation) = u.toJson.write (.ofIndentation indentation) ↔
      t = u) := by
  have hread : ∀ t : Node, t.IsNamed →
      (Json.read (t.toJson.write (.ofIndentation indentation)) >>= ofJson) = some t := by
    intro t ht
    rw [Json.read_write]
    exact ofJson_toJson ht
  refine ⟨Json.write_ascii _ _, hread t ht, fun h => ?_, fun h => by rw [h]⟩
  have heq := hread t ht
  rw [h, hread u hu] at heq
  exact (Option.some.inj heq).symm

/-- A call under a kind that the language does not have, at places before the start of the text,
whose function is a name with a quotation mark and a character outside the basic plane, and the same
call at another place. -/
theorem write_toJson_lossless_other :
    let t (stop : Int) : Node := ⟨.ofName "odd", .node ⟨.ofName "identifier", .text "\"𝄞", [],
      ⟨⟨-3, -2, -1⟩, 0⟩⟩, [⟨.ofName "absent", .none, [], ⟨⟨0, 0, 0⟩, 0⟩⟩], ⟨⟨-3, -2, -1⟩, stop⟩⟩
    (Json.read ((t 5).toJson.write (.ofIndentation (some 2))) >>= ofJson) = some (t 5) ∧
      (t 5).toJson.write (.ofIndentation (some 2)) ≠
        (t 6).toJson.write (.ofIndentation (some 2)) := by
  intro t
  have hnamed : ∀ stop, (t stop).IsNamed := by
    intro stop
    refine .mk _ ?_ (List.forall_mem_singleton.2 (.mk _ nofun nofun))
    rintro _ ⟨rfl⟩
    exact .mk _ nofun nofun
  obtain ⟨-, hread, hsame⟩ := write_toJson_lossless (some 2) (t 5) (t 6) (hnamed 5) (hnamed 6)
  exact ⟨hread, fun h => absurd (hsame.1 h) (by decide)⟩

end Sigil.Tree
