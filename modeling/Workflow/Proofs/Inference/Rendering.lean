import Workflow.Proofs.Inference.Naming
import Workflow.Proofs.Script.DeclarationPhrase

/-!
# The text of inferred types

The name of an interface begins with a capital letter or `_`, so it is no reserved word, whatever
key it was made of. A key that is no plain name is written as a string literal. So every inferred
declaration is written as one that is read as a whole.
-/

namespace Workflow.Script

/-! ## Names -/

/-- A name in plain letters and digits that begins with a capital letter or `_`. -/
def IsTypeName (name : String) : Prop :=
  ∃ c rest, name.toList = c :: rest ∧ (c.isUpper = true ∨ c = '_') ∧
    ∀ d ∈ rest, d.isAlphanum = true

variable {name key : String} {used : List String}

/-- A capital letter is a letter. -/
theorem isAlpha_of_isUpper {c : Char} (h : c.isUpper = true) : c.isAlpha = true :=
  Bool.or_eq_true_iff.mpr (.inl h)

/-- No reserved word begins with a capital letter. -/
theorem IsTypeName.exists_plainName (h : IsTypeName name) : ∃ x : PlainName, x.text = name := by
  obtain ⟨c, rest, htext, hc, hrest⟩ := h
  have hfirst : isLetter c = true := by
    rcases hc with hc | rfl
    · simp [isLetter, isAlpha_of_isUpper hc]
    · decide
  have hpart : ∀ d ∈ rest, (isLetter d || d.isDigit) = true := by
    intro d hd
    have halphanum := hrest d hd
    simp only [Char.isAlphanum, Bool.or_eq_true] at halphanum
    rcases halphanum with h | h <;> simp [isLetter, h]
  have hunreserved : name ∉ reservedWords := by
    have hnone : ∀ word ∈ reservedWords,
        (word.toList.head?.any fun c => c.isUpper || c == '_') = false := by
      decide +kernel
    intro hmem
    have hcapital := hnone name hmem
    rw [htext, List.head?_cons, Option.any_some, Bool.or_eq_false_iff] at hcapital
    rcases hc with hc | rfl
    · rw [hc] at hcapital
      cases hcapital.1
    · cases hcapital.2
  exact ⟨⟨name, c, rest, htext, hfirst, hpart, hunreserved⟩, rfl⟩

/-- An ASCII letter or digit in upper case is a capital letter or a digit. -/
theorem isUpper_or_isDigit_toUpper {c : Char} (h : c.isAlphanum = true) :
    c.toUpper.isUpper = true ∨ c.toUpper.isDigit = true := by
  have hascii : ∀ n < 128, (Char.ofNat n).isAlphanum = true →
      ((Char.ofNat n).toUpper.isUpper || (Char.ofNat n).toUpper.isDigit) = true := by
    decide
  have hvisible := visible_of_isAlphanum h
  have hcase := hascii c.toNat (by omega)
  rw [Char.ofNat_toNat] at hcase
  exact Bool.or_eq_true_iff.mp (hcase h)

/-- The capital of a letter is a letter. -/
theorem isAlphanum_toUpper {c : Char} (h : c.isAlphanum = true) : c.toUpper.isAlphanum = true := by
  rcases isUpper_or_isDigit_toUpper h with hupper | hdigit
  · simp [Char.isAlphanum, isAlpha_of_isUpper hupper]
  · simp [Char.isAlphanum, hdigit]

/-- A key in the style of type names has letters and digits only. -/
theorem isAlphanum_of_mem_capitalize {first : Bool} {cs : List Char} :
    ∀ d ∈ capitalize first cs, d.isAlphanum = true := by
  induction cs generalizing first with
  | nil => simp [capitalize]
  | cons c cs ih =>
    rw [capitalize]
    split
    · rename_i hc
      intro d hd
      rcases List.mem_cons.mp hd with rfl | hd
      · split
        · exact isAlphanum_toUpper hc
        · exact hc
      · exact ih d hd
    · exact ih

/-- It begins with a capital letter or a digit. -/
theorem isUpper_head_capitalize {cs : List Char} :
    ∀ d ∈ (capitalize true cs).head?, d.isDigit = false → d.isUpper = true := by
  induction cs with
  | nil => simp [capitalize]
  | cons c cs ih =>
    rw [capitalize]
    split
    · rename_i hc
      rintro _ ⟨⟩ hdigit
      rw [if_pos rfl] at hdigit ⊢
      exact (isUpper_or_isDigit_toUpper hc).resolve_right (by simp [hdigit])
    · exact ih

/-- The name that a key gives a type may be the name of one. -/
theorem isTypeName_typeName (key : String) : IsTypeName (typeName key) := by
  have hall := @isAlphanum_of_mem_capitalize true key.toList
  have hhead := @isUpper_head_capitalize key.toList
  rw [typeName]
  split
  · exact ⟨'I', ['t', 'e', 'm'], rfl, .inl (by decide), List.all_eq_true.mp (by decide)⟩
  · rename_i c rest heq
    rw [heq] at hall hhead
    cases hdigit : c.isDigit with
    | true => exact ⟨'_', c :: rest, by simp, .inr rfl, hall⟩
    | false =>
      exact ⟨c, rest, by simp, .inl (hhead c rfl hdigit),
        fun d hd => hall d (List.mem_cons_of_mem _ hd)⟩

/-- A number behind a name leaves it one. -/
theorem IsTypeName.append_number (h : IsTypeName name) (n : Nat) :
    IsTypeName (name ++ toString n) := by
  obtain ⟨c, rest, htext, hc, hrest⟩ := h
  refine ⟨c, rest ++ Nat.toDigits 10 n, ?_, hc, fun d hd => ?_⟩
  · rw [String.toList_append, htext, Text.toList_toString, List.cons_append]
  · rcases List.mem_append.mp hd with hd | hd
    · exact hrest d hd
    · simp [Char.isAlphanum, Nat.isDigit_of_mem_toDigits (by decide) (by decide) hd]

/-- A name that is made fresh may be the name of a type. -/
theorem isTypeName_freshName (used : List String) (key : String) :
    IsTypeName (freshName used (typeName key)) := by
  have hmem := (freshName_spec used (typeName key)).1
  rcases List.mem_cons.mp hmem with heq | hmem
  · rw [heq]
    exact isTypeName_typeName key
  · obtain ⟨k, -, heq⟩ := List.mem_map.mp hmem
    rw [← heq]
    exact (isTypeName_typeName key).append_number _

/-! ## Keys -/

/-- A character of a key is a part of a string literal, or a few. -/
theorem exists_pieces_escape (c : Char) : ∃ pieces : List StringPiece,
    pieces.flatMap StringPiece.characters = Json.escape c ∧ ∀ p ∈ pieces, p.Fits '"' := by
  unfold Json.escape
  split
  case h_8 hquote hslash _ _ hfeed _ _ =>
    split
    · rename_i hcontrol
      have hdigit : ∀ k < 16, StringPiece.Fits '"' (.plain (Json.hexDigit k)) := by
        simp only [StringPiece.Fits]
        decide
      have hzero : StringPiece.Fits '"' (.plain '0') := hdigit 0 (by decide)
      have hfirst := hdigit (c.toNat / 16) (by omega)
      have hsecond := hdigit (c.toNat % 16) (by omega)
      refine ⟨[.escaped 'u', .plain '0', .plain '0', .plain (Json.hexDigit (c.toNat / 16)),
        .plain (Json.hexDigit (c.toNat % 16))], rfl, ?_⟩
      simp only [List.forall_mem_cons, hzero, hfirst, hsecond, List.not_mem_nil, false_implies,
        implies_true, and_true]
      exact fun hfeed => absurd hfeed (by decide)
    · exact ⟨[.plain c], rfl, by simpa [StringPiece.Fits] using ⟨hquote, hslash, hfeed⟩⟩
  all_goals exact ⟨[.escaped _], rfl, by simp [StringPiece.Fits]⟩

/-- A text in quotes is a string literal. -/
theorem exists_stringLiteral (s : String) :
    ∃ l : StringLiteral, l.text = (Json.string s).compact := by
  have hpieces (cs : List Char) : ∃ pieces : List StringPiece,
      pieces.flatMap StringPiece.characters = cs.flatMap Json.escape ∧
        ∀ p ∈ pieces, p.Fits '"' := by
    induction cs with
    | nil => exact ⟨[], rfl, by simp⟩
    | cons c cs ih =>
      obtain ⟨front, hfront, hfits⟩ := exists_pieces_escape c
      obtain ⟨back, hback, hfits'⟩ := ih
      exact ⟨front ++ back, by rw [List.flatMap_append, hfront, hback, List.flatMap_cons],
        List.forall_mem_append.mpr ⟨hfits, hfits'⟩⟩
  obtain ⟨pieces, heq, hfits⟩ := hpieces s.toList
  refine ⟨⟨'"', pieces, .inl rfl, hfits⟩, ?_⟩
  rw [StringLiteral.text, Json.compact, Json.compactChars, Json.writeText, heq]

/-- Every key is read as one token. -/
theorem readsKey_renderKey (key : String) : ReadsKey (renderKey key) := by
  have hquoted : ReadsKey (Json.string key).compact := by
    obtain ⟨l, hl⟩ := exists_stringLiteral key
    exact hl ▸ readsKey_string l
  unfold renderKey
  split
  · rename_i c rest htext
    split
    · rename_i hplain
      rw [Bool.and_eq_true, List.all_eq_true] at hplain
      refine readsKey_word htext hplain.1 fun d hd => ?_
      have hpart := hplain.2 d hd
      simp only [isKeyPart, Bool.or_eq_true, beq_iff_eq] at hpart
      rcases hpart with (hpart | rfl) | rfl
      · exact isNamePart_of_isAlphanum hpart
      · decide
      · decide
    · exact hquoted
  · exact hquoted

/-! ## Types -/

/-- The text is that of a type. -/
def IsType (text : String) : Prop := ∃ T : Ty, T.text = text

namespace IsType

/-- A name is written as a type. -/
theorem of_plainName (h : ∃ x : PlainName, x.text = name) : IsType name := by
  obtain ⟨x, rfl⟩ := h
  exact ⟨.name x [], String.append_empty⟩

/-- A choice between types is a type. -/
theorem union {texts : List String} (h : ∀ text ∈ texts, IsType text) (hne : texts ≠ []) :
    IsType (" | ".intercalate texts) := by
  induction texts with
  | nil => exact absurd rfl hne
  | cons text rest ih =>
    obtain ⟨T, rfl⟩ := h text List.mem_cons_self
    cases rest with
    | nil => exact ⟨T, by simp⟩
    | cons next rest =>
      obtain ⟨U, hU⟩ := ih (fun t ht => h t (List.mem_cons_of_mem _ ht)) (by simp)
      refine ⟨.joined .union T U, ?_⟩
      rw [String.intercalate_cons_cons, ← hU, Ty.text, show " | " = " " ++ "|" ++ " " from rfl,
        TypeOperator.text]
      simp only [String.append_assoc]

end IsType

/-- A text that passes the check is a plain name. -/
theorem exists_plainName {text : String} (h : isPlainName text = true) :
    ∃ x : PlainName, x.text = text := by
  refine ⟨.ofText text h, ?_⟩
  unfold PlainName.ofText
  split
  · rename_i hnil
    exact absurd h (by simp [isPlainName, hnil])
  · rfl

namespace Shape

/-- Members are written one by one. -/
theorem renderMembers_eq_map (members : List Shape) :
    renderMembers members = members.map render := by
  induction members with
  | nil => rfl
  | cons member rest ih => rw [renderMembers, ih, List.map_cons]

theorem isType_primitive (p : Primitive) : IsType (primitive p).render :=
  .of_plainName (exists_plainName (by cases p <;> decide +kernel))

/-- An interface is written as a type by its name. -/
theorem isType_named (h : IsTypeName name) : IsType (named name).render :=
  .of_plainName h.exists_plainName

/-- A choice is put in brackets as the item of an array. -/
theorem isType_array {item : Shape} (h : IsType item.render) : IsType (array item).render := by
  obtain ⟨T, hT⟩ := h
  rw [render]
  split
  · exact ⟨.array (.group T), by simp only [Ty.text, hT, String.append_assoc]; rfl⟩
  · exact ⟨.array T, by rw [Ty.text, hT]⟩

/-- A union is written as a type if its members are. -/
theorem isType_union {members : List Shape} (h : ∀ m ∈ members, IsType m.render)
    (hne : members ≠ []) : IsType (union members).render := by
  rw [render, renderMembers_eq_map]
  exact .union (List.forall_mem_map.mpr h) (by simpa using hne)

/-- The type of some members is written as a type if those that are not primitive are. -/
theorem isType_ofMembers {primitives : List Primitive} {composites : List Shape}
    (h : ∀ m ∈ composites, IsType m.render) : IsType (ofMembers primitives composites).render := by
  have hall : ∀ m ∈ primitives.map .primitive ++ composites, IsType m.render := by
    intro m hm
    rcases List.mem_append.mp hm with hm | hm
    · obtain ⟨p, -, rfl⟩ := List.mem_map.mp hm
      exact isType_primitive p
    · exact h m hm
  rw [ofMembers]
  split
  · exact isType_primitive .any
  · split
    · exact isType_primitive .any
    · rename_i heq
      exact hall _ (by simp [heq])
    · rename_i hempty _
      exact isType_union hall hempty

end Shape

/-! ## Declarations -/

/-- The name and the types of the interface can be written. -/
structure Interface.Writable (i : Interface) : Prop where
  name : IsTypeName i.name
  fields : ∀ f ∈ i.fields, IsType f.shape.render

/-- What is inferred and the interfaces declared for it can be written. -/
structure Inferred.Writable {α : Type} (P : α → Prop) (r : Inferred α) : Prop where
  result : P r.result
  interfaces : ∀ i ∈ r.interfaces, i.Writable

/-- All that is inferred of objects can be written, if all that is inferred of their fields can. -/
theorem writable_inferObjects {objects : List Json.Entries} (h : objects ≠ [] → ∀ used,
      (inferFields objects (mergedKeys objects) used).Writable
        fun fields => ∀ f ∈ fields, IsType f.shape.render) :
    (inferObjects key objects used).Writable fun members => ∀ m ∈ members, IsType m.render := by
  rw [inferObjects]
  split
  · exact ⟨by simp, by simp⟩
  · rename_i hobjects
    have hname := isTypeName_freshName used key
    obtain ⟨hfields, hinterfaces⟩ := h hobjects (freshName used (typeName key) :: used)
    exact ⟨by simpa using Shape.isType_named hname,
      List.forall_mem_cons.mpr ⟨⟨hname, hfields⟩, hinterfaces⟩⟩

/-- All that is inferred of items can be written, if all that is inferred of their values can. -/
theorem writable_inferItems {items? : Option (List Json)} (h : ∀ items, items? = some items →
      ∀ used, (inferValues key items used).Writable fun shape => IsType shape.render) :
    (inferItems key items? used).Writable fun members => ∀ m ∈ members, IsType m.render := by
  cases items? with
  | none => exact ⟨by simp [inferItems], by simp [inferItems]⟩
  | some items =>
    obtain ⟨hitem, hinterfaces⟩ := h items rfl used
    exact ⟨by simpa [inferItems] using Shape.isType_array hitem, hinterfaces⟩

/-- What is inferred can be written. -/
theorem writable_infer :
    (∀ values key used, (inferValues key values used).Writable fun shape => IsType shape.render) ∧
    ∀ objects keys used, (inferFields objects keys used).Writable
      fun fields => ∀ f ∈ fields, IsType f.shape.render := by
  refine examples_induction ?_ ?_ ?_
  · intro values hfields hitems key used
    have hobjects : (inferObjects key (objectsOf values) used).Writable _ :=
      writable_inferObjects hfields
    rw [inferValues_eq]
    generalize inferObjects key (objectsOf values) used = objects at hobjects
    have harrays : (inferItems key (mergedItems? values) objects.used).Writable _ :=
      writable_inferItems fun items h => hitems items h key
    exact ⟨Shape.isType_ofMembers (List.forall_mem_append.mpr ⟨hobjects.result, harrays.result⟩),
      List.forall_mem_append.mpr ⟨hobjects.interfaces, harrays.interfaces⟩⟩
  · intro objects used
    rw [inferFields_nil]
    exact ⟨by simp, by simp⟩
  · intro objects key rest hfield hmore used
    rw [inferFields_cons]
    obtain ⟨hshape, hinterfaces⟩ := hfield key used
    obtain ⟨hshapes, hothers⟩ := hmore (inferValues key (valuesUnder key objects) used).used
    exact ⟨List.forall_mem_cons.mpr ⟨hshape, hshapes⟩,
      List.forall_mem_append.mpr ⟨hinterfaces, hothers⟩⟩

/-- A field with the text of its key and of its type. -/
def Field.written (f : Field) : WrittenField := ⟨renderKey f.key, f.optional, f.shape.render⟩

/-- An interface with its text. -/
def Interface.written (i : Interface) : WrittenDeclaration :=
  writtenInterface i.name (i.fields.map Field.written)

/-- Declarations, each with its text. -/
def Declarations.written (d : Declarations) : List WrittenDeclaration :=
  (d.aliased.map fun shape => writtenAlias d.root shape.render).toList ++
    d.interfaces.map Interface.written

/-- The line feeds behind the fields stand in front of what follows them. -/
theorem join_render (fields : List Field) :
    "\n" ++ (String.join (fields.map Field.render) ++ "\x7d") =
      String.join ((fields.map Field.written).map WrittenField.line) ++ "\n\x7d" := by
  induction fields with
  | nil => rfl
  | cons f fields ih =>
    have hfeed : ";\n" = ";" ++ "\n" := rfl
    have hlead : "\n  " = "\n" ++ "  " := rfl
    rw [List.map_cons, List.map_cons, List.map_cons, String.join_cons, String.join_cons,
      String.append_assoc, String.append_assoc, ← ih]
    simp only [Field.render, WrittenField.line, Field.written, hfeed, hlead, String.append_assoc]
    rfl

/-- An interface is written as its text and the end of a line. -/
theorem Interface.render_eq (i : Interface) : i.render = i.written.text ++ "\n" := by
  have hopen : " \x7b\n" = " \x7b" ++ "\n" := rfl
  have hclose : "\x7d\n" = "\x7d" ++ "\n" := rfl
  calc
    i.render = "interface " ++ i.name ++ " \x7b" ++
        ("\n" ++ (String.join (i.fields.map Field.render) ++ "\x7d")) ++ "\n" := by
      rw [render, hopen, hclose]
      simp only [String.append_assoc]
    _ = i.written.text ++ "\n" := by
      rw [join_render, written, writtenInterface, ← String.append_assoc]

/-- Declarations are written one by one, with empty lines between them. -/
theorem Declarations.render_eq (d : Declarations) :
    d.render = "\n".intercalate (d.written.map fun w => w.text ++ "\n") := by
  have hinterfaces : d.interfaces.map Interface.render =
      (d.interfaces.map Interface.written).map fun w => w.text ++ "\n" := by
    rw [List.map_map]
    exact List.map_congr_left fun i _ => i.render_eq
  rw [render, written, List.map_append, ← hinterfaces]
  cases d.aliased with
  | none => rfl
  | some shape =>
    have hfeed : ";\n" = ";" ++ "\n" := rfl
    simp only [Option.map_some, Option.toList_some, List.map_cons, List.map_nil, writtenAlias,
      hfeed, String.append_assoc]

/-- A field is read with its key and its type. -/
theorem reads_writtenField {optional : Bool} {type : String} (hkey : ReadsKey key)
    (htype : IsType type) : (WrittenField.mk key optional type).Reads := by
  obtain ⟨T, rfl⟩ := htype
  exact ⟨hkey, T.phrase.mono (fun _ => id) fun _ hts => hts.enclosed.balanced⟩

/-- An interface that can be written is read again. -/
theorem Interface.Writable.reads {i : Interface} (h : i.Writable) : i.written.Reads := by
  obtain ⟨x, hx⟩ := h.name.exists_plainName
  rw [Interface.written, ← hx]
  refine reads_writtenInterface x fun w hw => ?_
  obtain ⟨f, hf, rfl⟩ := List.mem_map.mp hw
  exact reads_writtenField (readsKey_renderKey f.key) (h.fields f hf)

/-- An alias is read with its name and its type. -/
theorem reads_alias {type : String} (hname : ∃ x : PlainName, x.text = name)
    (htype : IsType type) : (writtenAlias name type).Reads := by
  obtain ⟨x, rfl⟩ := hname
  obtain ⟨T, rfl⟩ := htype
  exact reads_writtenAlias x T.phrase

/-- Inferred declarations are read as such. -/
theorem Declarations.reads_infer {root : String} (hroot : IsTypeName root) (v : Json) :
    ∀ w ∈ (Declarations.infer root v).written, w.Reads := by
  rw [infer]
  cases v.entries? with
  | some entries =>
    obtain ⟨hfields, hinterfaces⟩ := writable_infer.2 [entries] (mergedKeys [entries]) [root]
    intro w hw
    obtain ⟨i, hi, rfl⟩ := List.mem_map.mp hw
    exact (List.forall_mem_cons.mpr ⟨⟨hroot, hfields⟩, hinterfaces⟩ i hi : i.Writable).reads
  | none =>
    obtain ⟨hshape, hinterfaces⟩ := writable_infer.1 [v] "item" [root]
    intro w hw
    rcases List.mem_cons.mp hw with rfl | hw
    · exact reads_alias hroot.exists_plainName hshape
    · obtain ⟨i, hi, rfl⟩ := List.mem_map.mp hw
      exact (hinterfaces i hi).reads

end Workflow.Script
