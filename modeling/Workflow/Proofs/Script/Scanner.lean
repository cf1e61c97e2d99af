import Mathlib.Data.List.TakeWhile
import Workflow.Script.Token.Lexer

/-!
# What is read does not depend on what follows

A comment and a literal in quotes or backticks have an end of their own: what a scanner
reads of the source it reads whatever stands behind. A regular expression and a number
go on as long as the characters behind them belong to them, and no other part of what
follows matters. White space and comments in front of a token are described by
`Trivia`, which says how they are made up.
-/

namespace Workflow.Script

variable {cs rest : List Char}

/-- A comment ends at its own mark. -/
theorem exists_body_of_commentTail (h : commentTail cs = some rest) :
    ∃ body, cs = body ++ rest ∧ ∀ w, commentTail (body ++ w) = some w := by
  fun_induction commentTail cs with
  | case1 => simp at h
  | case2 after =>
    cases h
    exact ⟨['*', '/'], rfl, fun w => rfl⟩
  | case3 c tail hopen ih =>
    obtain ⟨body, rfl, hbody⟩ := ih h
    refine ⟨c :: body, rfl, fun w => ?_⟩
    rw [List.cons_append, commentTail]
    · exact hbody w
    · intro after hc heq
      cases body with
      | nil => simpa [commentTail] using hbody []
      | cons d body =>
        obtain ⟨rfl, -⟩ := List.cons.inj heq
        exact hopen (body ++ rest) hc rfl

theorem commentTail_append (h : commentTail cs = some []) (w : List Char) :
    commentTail (cs ++ w) = some w := by
  obtain ⟨body, rfl, hbody⟩ := exists_body_of_commentTail h
  simpa using hbody w

/-- An ordinary character of a string literal is passed over. -/
theorem stringTail_cons {quote c : Char} (hfeed : c ≠ '\n') (hesc : c ≠ '\\') :
    stringTail quote (c :: cs) = if c = quote then some cs else stringTail quote cs := by
  rw [stringTail]
  · exact hfeed
  · intro _ h
    exact absurd h hesc
  · intro _ _ h
    exact absurd h hesc

/-- A string literal ends at its own quote. -/
theorem exists_body_of_stringTail {quote : Char} (hq : quote ≠ '\\')
    (h : stringTail quote cs = some rest) :
    ∃ body, cs = body ++ rest ∧ ∀ w, stringTail quote (body ++ w) = some w := by
  fun_induction stringTail quote cs with
  | case1 => simp at h
  | case2 => simp at h
  | case3 tail ih =>
    obtain ⟨body, rfl, hbody⟩ := ih h
    refine ⟨'\\' :: '\r' :: '\n' :: body, rfl, fun w => ?_⟩
    simp only [List.cons_append]
    rw [stringTail]
    exact hbody w
  | case4 c tail hfeed ih =>
    obtain ⟨body, rfl, hbody⟩ := ih h
    refine ⟨'\\' :: c :: body, rfl, fun w => ?_⟩
    rw [List.cons_append, List.cons_append, stringTail]
    · exact hbody w
    · intro after hc heq
      cases body with
      | nil => simpa [stringTail] using hbody []
      | cons d body =>
        obtain ⟨rfl, -⟩ := List.cons.inj heq
        exact hfeed (body ++ rest) hc rfl
  | case5 tail hfeed _ _ =>
    cases h
    refine ⟨[quote], rfl, fun w => ?_⟩
    rw [List.cons_append, stringTail_cons hfeed hq, if_pos rfl]
    rfl
  | case6 c tail hfeed _ hesc hne ih =>
    have hplain : c ≠ '\\' := by
      rintro rfl
      cases tail with
      | nil => simp [stringTail] at h
      | cons d tail => exact hesc d tail rfl rfl
    obtain ⟨body, rfl, hbody⟩ := ih h
    refine ⟨c :: body, rfl, fun w => ?_⟩
    rw [List.cons_append, stringTail_cons hfeed hplain, if_neg hne]
    exact hbody w

theorem stringTail_append {quote : Char} (hq : quote ≠ '\\') (h : stringTail quote cs = some [])
    (w : List Char) : stringTail quote (cs ++ w) = some w := by
  obtain ⟨body, rfl, hbody⟩ := exists_body_of_stringTail hq h
  simpa using hbody w

theorem regexTail_cons {inClass : Bool} {c : Char} (hfeed : c ≠ '\n') (hesc : c ≠ '\\') :
    regexTail inClass (c :: cs) =
      if c = '[' then regexTail true cs
      else if c = ']' then regexTail false cs
      else if c = '/' ∧ inClass = false then some (cs.dropWhile isNamePart)
      else regexTail inClass cs := by
  rw [regexTail]
  · exact hfeed
  · intro _ _ h
    exact absurd h hesc

/-- A regular expression ends at its own slash; behind it stand its flags. -/
theorem exists_body_of_regexTail {inClass : Bool} (h : regexTail inClass cs = some rest) :
    ∃ body, cs = body ++ rest ∧
      ∀ w, regexTail inClass (body ++ w) = some (w.dropWhile isNamePart) := by
  fun_induction regexTail inClass cs with
  | case1 => simp at h
  | case2 => simp at h
  | case3 inClass c tail ih =>
    obtain ⟨body, rfl, hbody⟩ := ih h
    refine ⟨'\\' :: c :: body, rfl, fun w => ?_⟩
    rw [List.cons_append, List.cons_append, regexTail]
    exact hbody w
  | case4 inClass tail hfeed _ ih =>
    obtain ⟨body, rfl, hbody⟩ := ih h
    refine ⟨'[' :: body, rfl, fun w => ?_⟩
    rw [List.cons_append, regexTail_cons hfeed (by decide), if_pos rfl]
    exact hbody w
  | case5 inClass tail hfeed _ _ ih =>
    obtain ⟨body, rfl, hbody⟩ := ih h
    refine ⟨']' :: body, rfl, fun w => ?_⟩
    rw [List.cons_append, regexTail_cons hfeed (by decide), if_neg (by decide), if_pos rfl]
    exact hbody w
  | case6 inClass c tail hfeed _ hopen hclose hslash =>
    obtain ⟨rfl, rfl⟩ := hslash
    cases h
    refine ⟨'/' :: tail.takeWhile isNamePart, ?_, fun w => ?_⟩
    · rw [List.cons_append, List.takeWhile_append_dropWhile]
    · rw [List.cons_append, regexTail_cons hfeed (by decide), if_neg hopen, if_neg hclose,
        if_pos ⟨rfl, rfl⟩, List.dropWhile_append_of_pos fun _ hx => List.mem_takeWhile_imp hx]
  | case7 inClass c tail hfeed hesc hopen hclose hslash ih =>
    have hplain : c ≠ '\\' := by
      rintro rfl
      cases tail with
      | nil => simp [regexTail] at h
      | cons d tail => exact hesc d tail rfl rfl
    obtain ⟨body, rfl, hbody⟩ := ih h
    refine ⟨c :: body, rfl, fun w => ?_⟩
    rw [List.cons_append, regexTail_cons hfeed hplain, if_neg hopen, if_neg hclose, if_neg hslash]
    exact hbody w

theorem regexTail_append {inClass : Bool} (h : regexTail inClass cs = some []) (w : List Char) :
    regexTail inClass (cs ++ w) = some (w.dropWhile isNamePart) := by
  obtain ⟨body, rfl, hbody⟩ := exists_body_of_regexTail h
  simpa using hbody w

/-- A number is read on from its last character. -/
theorem numberTail_append {hexadecimal : Bool} {previous : Char}
    (h : numberTail hexadecimal previous cs = []) (w : List Char) :
    numberTail hexadecimal previous (cs ++ w) =
      numberTail hexadecimal (cs.getLastD previous) w := by
  induction cs generalizing previous with
  | nil => rfl
  | cons c tail ih =>
    rw [numberTail] at h
    rw [List.cons_append, numberTail, List.getLastD_cons]
    split at h
    · rename_i hc
      rw [if_pos hc, ih h]
    · cases h

/-- What is read of a number is a number by itself. -/
theorem exists_body_of_numberTail (hexadecimal : Bool) (previous : Char) (cs : List Char) :
    ∃ body, cs = body ++ numberTail hexadecimal previous cs ∧
      numberTail hexadecimal previous body = [] := by
  induction cs generalizing previous with
  | nil => exact ⟨[], rfl, rfl⟩
  | cons c tail ih =>
    rw [numberTail]
    split
    · rename_i hc
      obtain ⟨body, heq, hbody⟩ := ih c
      refine ⟨c :: body, congrArg (c :: ·) heq, ?_⟩
      rw [numberTail, if_pos hc]
      exact hbody
    · exact ⟨[], rfl, rfl⟩

/-- White space and comments that end before what follows them. -/
inductive Trivia : List Char → Prop
  /-- Nothing stands in front. -/
  | none : Trivia []
  /-- A blank character. -/
  | blank {c : Char} {cs : List Char} : Text.isBlank c = true → Trivia cs → Trivia (c :: cs)
  /-- A comment up to the line feed that ends its line. -/
  | line {body cs : List Char} : '\n' ∉ body → Trivia ('\n' :: cs) →
      Trivia ('/' :: '/' :: (body ++ '\n' :: cs))
  /-- A comment between its marks. -/
  | block {body cs : List Char} : commentTail body = some [] → Trivia cs →
      Trivia ('/' :: '*' :: (body ++ cs))

theorem triviaTail_blank {c : Char} (hc : Text.isBlank c = true) :
    triviaTail (c :: cs) = triviaTail cs := by
  have hslash : c ≠ '/' := by
    rintro rfl
    exact absurd hc (by decide)
  rw [triviaTail]
  · exact if_pos hc
  · exact fun _ h => absurd h hslash
  · exact fun _ h => absurd h hslash

theorem triviaTail_comment {body : List Char} (h : commentTail body = some rest) :
    triviaTail ('/' :: '*' :: body) = triviaTail rest := by
  rw [triviaTail]
  split
  · rename_i after hafter
    rw [h] at hafter
    cases hafter
    rfl
  · rename_i hnone
    rw [h] at hnone
    cases hnone

theorem lineTail_append {body : List Char} (h : '\n' ∉ body) (cs : List Char) :
    lineTail (body ++ '\n' :: cs) = '\n' :: cs := by
  rw [lineTail, List.dropWhile_append_of_pos, List.dropWhile_cons_of_neg (by decide)]
  intro c hc
  simpa using ne_of_mem_of_not_mem hc h

/-- A line without its line feed, and what follows it. -/
theorem exists_line (cs : List Char) : ∃ line, '\n' ∉ line ∧ cs = line ++ lineTail cs ∧
    (lineTail cs = [] ∨ ∃ after, lineTail cs = '\n' :: after) := by
  refine ⟨cs.takeWhile (· != '\n'), fun hmem => ?_, List.takeWhile_append_dropWhile.symm, ?_⟩
  · simpa using List.mem_takeWhile_imp hmem
  · cases hline : lineTail cs with
    | nil => exact .inl rfl
    | cons d after =>
      have hd := List.head?_dropWhile_not (· != '\n') cs
      rw [← lineTail, hline] at hd
      obtain rfl : d = '\n' := by simpa using hd
      exact .inr ⟨after, rfl⟩

/-- White space and comments are passed over whatever follows them. -/
theorem Trivia.triviaTail_append (h : Trivia cs) (w : List Char) :
    triviaTail (cs ++ w) = triviaTail w := by
  induction h with
  | none => rfl
  | blank hc _ ih => rw [List.cons_append, triviaTail_blank hc, ih]
  | @line body cs hbody _ ih =>
    have hline : lineTail (body ++ '\n' :: (cs ++ w)) = '\n' :: (cs ++ w) :=
      lineTail_append hbody (cs ++ w)
    simp only [List.cons_append, List.append_assoc] at ih ⊢
    rw [triviaTail, hline, ih]
  | block hbody _ ih =>
    simp only [List.cons_append, List.append_assoc]
    rw [triviaTail_comment (commentTail_append hbody _), ih]

/-- White space and comments may follow each other. -/
theorem Trivia.append {w : List Char} (h : Trivia cs) (hw : Trivia w) : Trivia (cs ++ w) := by
  induction h with
  | none => exact hw
  | blank hc _ ih => exact .blank hc ih
  | line hbody _ ih => simpa using Trivia.line hbody ih
  | block hbody _ ih => simpa using Trivia.block hbody ih

/-- What is left behind white space and comments begins with neither. -/
theorem triviaTail_of_eq_ok (h : triviaTail cs = .ok rest) : triviaTail rest = .ok rest := by
  fun_induction triviaTail cs with
  | case1 =>
    cases h
    rw [triviaTail]
  | case2 tail ih => exact ih h
  | case3 tail after _ ih => exact ih h
  | case4 => cases h
  | case5 d tail _ _ _ ih => exact ih h
  | case6 d tail hline hblock hd =>
    cases h
    rw [triviaTail]
    · exact if_neg hd
    · exact hline
    · exact hblock

/-- A text begins with neither white space nor a comment if its first character is not
blank and starts no comment together with the second. -/
theorem triviaTail_eq_self_iff {c : Char} : triviaTail (c :: cs) = .ok (c :: cs) ↔
    Text.isBlank c = false ∧ ¬ (c = '/' ∧ (cs.head? = some '/' ∨ cs.head? = some '*')) := by
  constructor
  · intro h
    refine ⟨Bool.eq_false_iff.mpr fun hc => ?_, ?_⟩
    · rw [triviaTail_blank hc] at h
      have := length_triviaTail_le h
      simp only [List.length_cons] at this
      omega
    · rintro ⟨rfl, hcs⟩
      cases cs with
      | nil => simp at hcs
      | cons d tail =>
        have hlength : ∀ {after : List Char}, after.length ≤ tail.length →
            triviaTail after ≠ .ok ('/' :: d :: tail) := fun hafter heq => by
          have := length_triviaTail_le heq
          simp only [List.length_cons] at this
          omega
        rcases hcs with hd | hd
        · obtain rfl : d = '/' := by simpa using hd
          rw [triviaTail] at h
          exact hlength (length_lineTail_le tail) h
        · obtain rfl : d = '*' := by simpa using hd
          rw [triviaTail] at h
          split at h
          · rename_i after hafter
            exact hlength (Nat.le_of_lt (length_commentTail_lt hafter)) h
          · cases h
  · rintro ⟨hblank, hslash⟩
    rw [triviaTail]
    · simp [hblank]
    · rintro tail rfl rfl
      exact hslash ⟨rfl, .inl rfl⟩
    · rintro tail rfl rfl
      exact hslash ⟨rfl, .inr rfl⟩

/-- A line in front of a token ends with a line feed. -/
theorem exists_line_front {front : List Char} {c : Char} (hc : Text.isBlank c = false)
    (h : lineTail cs = front ++ c :: rest) : ∃ line front', '\n' ∉ line ∧ front = '\n' :: front' ∧
      cs = line ++ '\n' :: (front' ++ c :: rest) := by
  obtain ⟨line, hline, hcs, hnil | ⟨after, hafter⟩⟩ := exists_line cs
  · rw [hnil] at h
    simp at h
  · rw [hafter] at h hcs
    cases front with
    | nil =>
      obtain ⟨rfl, -⟩ := List.cons.inj h
      exact absurd hc (by decide)
    | cons d front =>
      obtain ⟨rfl, rfl⟩ := List.cons.inj h
      exact ⟨line, front, hline, rfl, hcs⟩

/-- What is in front of a token is made up of white space and comments. -/
theorem exists_trivia_of_triviaTail {c : Char} (h : triviaTail cs = .ok (c :: rest)) :
    ∃ front, Trivia front ∧ cs = front ++ c :: rest := by
  fun_induction triviaTail cs with
  | case1 => cases h
  | case2 tail ih =>
    obtain ⟨front, hfront, heq⟩ := ih h
    have hc := (triviaTail_eq_self_iff.mp (triviaTail_of_eq_ok h)).1
    obtain ⟨line, front, hline, rfl, rfl⟩ := exists_line_front hc heq
    exact ⟨'/' :: '/' :: (line ++ '\n' :: front), .line hline hfront, by simp⟩
  | case3 tail after hafter ih =>
    obtain ⟨body, rfl, hbody⟩ := exists_body_of_commentTail hafter
    obtain ⟨front, hfront, rfl⟩ := ih h
    have hwhole : commentTail body = some [] := by simpa using hbody []
    exact ⟨'/' :: '*' :: (body ++ front), .block hwhole hfront, by simp⟩
  | case4 => cases h
  | case5 d tail _ _ hd ih =>
    obtain ⟨front, hfront, rfl⟩ := ih h
    exact ⟨d :: front, .blank hd hfront, rfl⟩
  | case6 d tail _ _ hd =>
    cases h
    exact ⟨[], .none, rfl⟩

/-- White space and comments are cut off the front of a text. -/
theorem exists_front_of_triviaTail (h : triviaTail cs = .ok rest) :
    ∃ front, cs = front ++ rest ∧ (rest ≠ [] → Trivia front) := by
  cases rest with
  | nil => exact ⟨cs, by simp, fun hne => absurd rfl hne⟩
  | cons c rest =>
    obtain ⟨front, hfront, rfl⟩ := exists_trivia_of_triviaTail h
    exact ⟨front, rfl, fun _ => hfront⟩

end Workflow.Script
