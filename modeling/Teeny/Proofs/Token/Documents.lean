import Teeny.Proofs.Text.Json
import Teeny.Proofs.Token.Titles
import Teeny.Token.Json

/-!
# Tokens read back from JSON

The document of a list of tokens is a JSON text, and its value is the array of the tokens, each an
object that has the token's position and kind in words, and its text (`TokenJson.isDocument`). As a
JSON text has one value only, and the words for positions and kinds are read back, so is the list
(`TokenJson.document_decodes`).
-/

namespace Teeny

namespace Json

/-! ## Entries on lines of their own -/

theorem isSpace_newline : IsSpace (bytes "\n") := List.all_eq_true.1 rfl

theorem IsSpace.append {a b : Bytes} (ha : IsSpace a) (hb : IsSpace b) : IsSpace (a ++ b) :=
  List.forall_mem_append.2 ⟨ha, hb⟩

/-- Entries with a comma and a newline between them, in blanks. -/
theorem spells_entries {α : Type} (entry : α → Entry) (text : α → Bytes) {l : List α} (hl : l ≠ [])
    (h : ∀ x ∈ l, ∀ a b, IsSpace a → IsSpace b → Spells (.entry (entry x)) (a ++ text x ++ b))
    {a b : Bytes} (ha : IsSpace a) (hb : IsSpace b) :
    Spells (.entries (l.map entry)) (a ++ (bytes ",\n").intercalate (l.map text) ++ b) := by
  induction l generalizing a with
  | nil => exact absurd rfl hl
  | cons x l ih =>
    obtain ⟨hx, hrest⟩ := List.forall_mem_cons.1 h
    cases l with
    | nil =>
      rw [List.map_singleton, List.map_singleton, List.intercalate_singleton]
      exact .one (hx a b ha hb)
    | cons y l =>
      -- the newline behind the comma is a blank in front of the next entry
      have hlast := ih (List.cons_ne_nil y l) hrest isSpace_newline
      have hall := Spells.more (hx a [] ha (List.forall_mem_nil _)) hlast
      have hcomma : bytes ",\n" = bytes "," ++ bytes "\n" := by decide
      simp only [List.map_cons, List.intercalate_cons_cons, hcomma, List.append_assoc,
        List.append_nil] at hall ⊢
      exact hall

end Json

namespace Token

/-- A token as a JSON value. -/
def json (t : Token) : Json :=
  .object [(bytes "pos", .string t.position.text), (bytes "kind", .string t.kind.title),
    (bytes "text", .string t.text)]

/-- Whether the text of a token and the name of its file are encoded as UTF-8. -/
structure IsEncoded (t : Token) : Prop where
  text : Bytes.IsEncoded t.text
  file : Bytes.IsEncoded t.position.file

/-- A token is read back from its value. -/
theorem json_inj {t t' : Token} (h : t.json = t'.json) : t = t' := by
  simp only [json, Json.object.injEq, List.cons.injEq, Prod.mk.injEq, Json.string.injEq, true_and,
    and_true] at h
  obtain ⟨hposition, hkind, htext⟩ := h
  obtain ⟨⟨kind, text⟩, position⟩ := t
  obtain ⟨⟨kind', text'⟩, position'⟩ := t'
  rw [show position = position' from Position.text_inj hposition,
    show kind = kind' from Kind.title_inj hkind, show text = text' from htext]

end Token

namespace TokenJson

open Json

theorem spells_member {key : String} {value : Bytes}
    (hkey : JsonString.text (bytes key) = bytes "\"" ++ bytes key ++ bytes "\"")
    (h : Bytes.IsEncoded value) {a b : Bytes} (ha : IsSpace a) (hb : IsSpace b) :
    Spells (.entry (.member (bytes key) (.string value))) (a ++ member key value ++ b) := by
  have hindent : IsSpace (bytes "    ") := List.all_eq_true.1 rfl
  have hspace : IsSpace (bytes " ") := List.all_eq_true.1 rfl
  have hstring := isString_text (Bytes.isEncoded_bytes key)
  have hall := Spells.member (ha.append hindent) hstring (List.forall_mem_nil _)
    (.item hspace (.string (isString_text h)) hb)
  have hopen : bytes "    \"" = bytes "    " ++ bytes "\"" := by decide
  have hcolon : bytes "\": " = bytes "\"" ++ (bytes ":" ++ bytes " ") := by decide
  rw [hkey] at hall
  simp only [member, hopen, hcolon, List.append_assoc, List.nil_append] at hall ⊢
  exact hall

/-- A token in blanks is its value. -/
theorem spells_object {t : Token} (h : t.IsEncoded) {a b : Bytes} (ha : IsSpace a)
    (hb : IsSpace b) : Spells (.entry (.item t.json)) (a ++ object t ++ b) := by
  have hindent : IsSpace (bytes "  ") := List.all_eq_true.1 rfl
  have hposition : ∀ a b, IsSpace a → IsSpace b →
      Spells (.entry (.member (bytes "pos") (.string t.position.text)))
        (a ++ member "pos" t.position.text ++ b) := fun _ _ =>
    spells_member (by decide +kernel) (Position.isEncoded_text h.file)
  have hkind : ∀ a b, IsSpace a → IsSpace b →
      Spells (.entry (.member (bytes "kind") (.string t.kind.title)))
        (a ++ member "kind" t.kind.title ++ b) := fun _ _ =>
    spells_member (by decide +kernel) (Kind.isEncoded_title _)
  have htext : ∀ a b, IsSpace a → IsSpace b →
      Spells (.entry (.member (bytes "text") (.string t.text))) (a ++ member "text" t.text ++ b) :=
    fun _ _ => spells_member (by decide +kernel) h.text
  let members := [("pos", t.position.text), ("kind", t.kind.title), ("text", t.text)]
  have hmember : ∀ m ∈ members, ∀ a b, IsSpace a → IsSpace b →
      Spells (.entry (.member (bytes m.1) (.string m.2))) (a ++ member m.1 m.2 ++ b) :=
    List.forall_mem_cons.2
      ⟨hposition, List.forall_mem_cons.2 ⟨hkind, List.forall_mem_singleton.2 htext⟩⟩
  have hmembers := spells_entries _ _ (List.cons_ne_nil _ _) hmember isSpace_newline
    (isSpace_newline.append hindent)
  have hobject : Spells (.value t.json) _ := .object hmembers
  have hall := Spells.item (ha.append hindent) hobject hb
  have hopen : bytes "  \x7b\n" = bytes "  " ++ (bytes "\x7b" ++ bytes "\n") := by decide
  have hclose : bytes "\n  \x7d" = bytes "\n" ++ (bytes "  " ++ bytes "\x7d") := by decide
  simp only [object, hopen, hclose, List.append_assoc] at hall ⊢
  exact hall

theorem isEncoded_member (key : String) (value : Bytes) : Bytes.IsEncoded (member key value) :=
  (((Bytes.isEncoded_bytes _).append (Bytes.isEncoded_bytes _)).append
    (Bytes.isEncoded_bytes _)).append (isEncoded_text value)

theorem isEncoded_object (t : Token) : Bytes.IsEncoded (object t) := by
  refine ((Bytes.isEncoded_bytes _).append ?_).append (Bytes.isEncoded_bytes _)
  refine Bytes.isEncoded_intercalate (Bytes.isEncoded_bytes _) ?_
  exact List.forall_mem_cons.2 ⟨isEncoded_member _ _, List.forall_mem_cons.2
    ⟨isEncoded_member _ _, List.forall_mem_singleton.2 (isEncoded_member _ _)⟩⟩

theorem isEncoded_document (tokens : List Token) : Bytes.IsEncoded (document tokens) := by
  unfold document
  split
  · exact Bytes.isEncoded_bytes _
  · refine ((Bytes.isEncoded_bytes _).append ?_).append (Bytes.isEncoded_bytes _)
    refine Bytes.isEncoded_intercalate (Bytes.isEncoded_bytes _) fun text htext => ?_
    obtain ⟨t, -, rfl⟩ := List.mem_map.1 htext
    exact isEncoded_object t

/-- The document of encoded tokens is a JSON text, whose value is the array of the tokens. -/
theorem isDocument {tokens : List Token} (h : ∀ t ∈ tokens, t.IsEncoded) :
    IsDocument (document tokens) (.array (tokens.map Token.json)) where
  encoded := isEncoded_document tokens
  spells := by
    cases tokens with
    | nil =>
      have harray : Spells (.value (.array [])) (bytes "[" ++ [] ++ bytes "]") :=
        .array (.none (List.forall_mem_nil _))
      have hall := Spells.item (List.forall_mem_nil _) harray isSpace_newline
      have hdocument : bytes "[]\n" = [] ++ (bytes "[" ++ [] ++ bytes "]") ++ bytes "\n" := by
        decide
      rw [document, hdocument]
      exact hall
    | cons t tokens =>
      have hitems := spells_entries (fun t : Token => .item t.json) object (List.cons_ne_nil _ _)
        (fun t ht _ _ => spells_object (h t ht)) isSpace_newline isSpace_newline
      have hmap : ((t :: tokens).map Token.json).map Entry.item =
          (t :: tokens).map fun t => Entry.item t.json := List.map_map
      rw [← hmap] at hitems
      have hall := Spells.item (List.forall_mem_nil _) (.array hitems) isSpace_newline
      have hopen : bytes "[\n" = bytes "[" ++ bytes "\n" := by decide
      have hclose : bytes "\n]\n" = bytes "\n" ++ (bytes "]" ++ bytes "\n") := by decide
      simp only [document, hopen, hclose, List.append_assoc, List.nil_append] at hall ⊢
      exact hall

/-- Encoded tokens are written as a JSON text with one value, the array of the tokens, and are read
back from it. -/
theorem document_decodes {tokens tokens' : List Token} (h : ∀ t ∈ tokens, t.IsEncoded)
    (h' : ∀ t ∈ tokens', t.IsEncoded) :
    (∀ v, IsDocument (document tokens) v ↔ v = .array (tokens.map Token.json)) ∧
    (document tokens = document tokens' → tokens = tokens') ∧
    (∀ p p' : Position, p.text = p'.text → p = p') ∧
    ∀ m n : Nat, (Kind.ofCode m).title = (Kind.ofCode n).title → m = n := by
  refine ⟨fun v => ⟨fun hv => hv.unique (isDocument h), ?_⟩, fun he => ?_,
    fun _ _ => Position.text_inj, fun _ _ => Kind.title_ofCode_inj⟩
  · rintro rfl
    exact isDocument h
  · have hvalues := (isDocument h).unique (he ▸ isDocument h')
    exact (List.map_inj_right fun _ _ => Token.json_inj).1 (Json.array.inj hvalues)

/-- Tokens of files with a colon in their names and with none, a text that is written with escapes,
and a kind that nothing in a source has. -/
theorem document_decodes_of_colon :
    let first : Token := ⟨⟨.string, bytes "<\n"⟩, ⟨bytes "a:1", 2, 3⟩⟩
    let other : Token := ⟨⟨.string, bytes "<\n"⟩, ⟨bytes "a", 1, 2⟩⟩
    let second : Token := ⟨⟨.name, bytes "é"⟩, ⟨[], 1, 4⟩⟩
    let third : Token := ⟨⟨.unassigned 3, []⟩, ⟨bytes "a", 5, 6⟩⟩
    (∀ v, IsDocument (document [first, second, third]) v ↔
      v = .array
        [.object [(bytes "pos", .string (bytes "a:1:2:3")),
            (bytes "kind", .string (bytes "string")), (bytes "text", .string (bytes "<\n"))],
          .object [(bytes "pos", .string (bytes "1:4")),
            (bytes "kind", .string (bytes "identifier")), (bytes "text", .string (bytes "é"))],
          .object [(bytes "pos", .string (bytes "a:5:6")),
            (bytes "kind", .string (bytes "kind(32)")), (bytes "text", .string [])]]) ∧
      document [first, second, third] ≠ document [other, second, third] := by
  intro first other second third
  have hposition : first.position.text = bytes "a:1:2:3" := by decide +kernel
  have hposition' : second.position.text = bytes "1:4" := by decide +kernel
  have hposition'' : third.position.text = bytes "a:5:6" := by decide +kernel
  have hkind : third.kind.title = bytes "kind(32)" := by decide +kernel
  have hfirst : first.IsEncoded := ⟨⟨_, rfl⟩, ⟨_, rfl⟩⟩
  have hother : other.IsEncoded := ⟨⟨_, rfl⟩, ⟨_, rfl⟩⟩
  have hsecond : second.IsEncoded := ⟨⟨_, rfl⟩, Bytes.isEncoded_bytes ""⟩
  have hthird : third.IsEncoded := ⟨Bytes.isEncoded_bytes "", ⟨_, rfl⟩⟩
  obtain ⟨hvalue, hinj, -⟩ := @document_decodes [first, second, third] [other, second, third]
    (by simp [hfirst, hsecond, hthird]) (by simp [hother, hsecond, hthird])
  refine ⟨?_, fun he => absurd (hinj he) (by decide)⟩
  simp only [List.map_cons, List.map_nil, Token.json, hposition, hposition', hposition'',
    hkind] at hvalue
  exact hvalue

end TokenJson

end Teeny
