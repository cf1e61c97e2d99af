import Workflow.Proofs.Script.MarkedText

/-!
# Where a slash divides

A slash starts a regular expression or divides, and the token in front of it decides which. In
front of a slash the tokens of a text are read as they are elsewhere: behind a slash that divides
the reading goes on, and behind one that starts a regular expression without an end it stops.
-/

namespace Workflow.Script

variable {source front frontErased back backErased : String} {stops stops' : Char → Prop}
  {P Q : List (Token × Bool) → Prop} {ts earlier : List Token} {t : Token} {cs rest : List Char}
  {before : Nat}

/-- A regular expression ends with a slash. -/
theorem regexTail_eq_none {inClass : Bool} (h : '/' ∉ cs) : regexTail inClass cs = none := by
  fun_induction regexTail inClass cs with
  | case1 => rfl
  | case2 => rfl
  | case3 _ c tail ih => exact ih (by simp_all)
  | case4 _ tail _ _ ih => exact ih (by simp_all)
  | case5 _ tail _ _ _ ih => exact ih (by simp_all)
  | case6 => simp_all
  | case7 _ c tail _ _ _ _ _ ih => exact ih (by simp_all)

theorem tokenTail_regex (hallowed : regexAllowed earlier = true) (hrest : '/' ∉ rest) :
    tokenTail earlier '/' rest = .error ⟨.unterminatedRegex, rest.length + 1⟩ := by
  have hstart : isNameStart '/' = false := by decide
  have hdigit : Char.isDigit '/' = false := by decide
  simp [tokenTail, hstart, hdigit, hallowed, regexTail_eq_none hrest]

/-- A slash with a space behind it is no comment. -/
theorem triviaTail_slash {lead : String} (hlead : Trivia lead.toList) (rest : List Char) :
    triviaTail (lead.toList ++ '/' :: ' ' :: rest) = .ok ('/' :: ' ' :: rest) := by
  rw [hlead.triviaTail_append]
  exact triviaTail_eq_self_iff.mpr ⟨by decide, by simp⟩

/-- Where a regular expression may start, a slash without a second one behind it stops the
reading. -/
theorem Lexed.readTokens_regex (h : Lexed 0 front stops ts)
    (hsource : source.toList = front.toList ++ (' ' :: '/' :: ' ' :: rest))
    (hmark : ¬ ['#', '!'] <+: source.toList) (hspace : stops ' ')
    (hallowed : regexAllowed ts.reverse = true) (hrest : '/' ∉ rest) :
    readTokens source = ⟨ts, some ⟨.unterminatedRegex, rest.length + 2⟩⟩ := by
  have hblank : Trivia " ".toList := .blank (by decide) .none
  have hslash := triviaTail_slash hblank rest
  rw [h.readTokens_eq hsource hmark hslash (by simpa using hspace),
    readFrom_fault (tokenTail_regex hallowed (by simpa using hrest))]
  simp

/-- What is wrong with a token refuses the source if the brackets in front of it pair up. -/
theorem tokenize_fault {fault : LexicalFault} (hread : readTokens source = ⟨ts, some fault⟩)
    (hbalanced : Balanced ts) :
    tokenize source = .error ⟨fault.cause, source.length - fault.remaining⟩ := by
  obtain ⟨q, hq, -⟩ := hbalanced.takeAll_eq_ok ⟨Array.replicate ts.length none, []⟩ 0
  simp only [tokenize, hread, hq]

/-- A slash with a space behind it. -/
theorem formed_slash (hkind : t.kind = .punctuator) (htext : t.text = "/") : t.Formed := by
  have hread : tokenTail [⟨.number, "", "1", 0⟩] '/' [] = .ok (.punctuator, []) := by decide
  exact ⟨'/', [], _, by rw [htext]; rfl, triviaTail_eq_self_iff.mpr ⟨by decide, by simp⟩,
    hkind ▸ hread⟩

/-- Where no regular expression may start, a slash divides, and the reading goes on behind it. -/
theorem Erases.exists_read_division (h : Erases front frontErased stops P)
    (h' : Erases back backErased stops' Q)
    (hmark : ¬ ['#', '!'] <+: (front ++ " /" ++ back).toList) (hspace : stops ' ')
    (hback : back.toList.head? = some ' ')
    (hdivides : ∀ ms, P ms → regexAllowed (ms.map Prod.fst).reverse = false) :
    ∃ ms ns slash last, readTokens (front ++ " /" ++ back) =
        ⟨(ms ++ (slash, true) :: ns).map Prod.fst ++ [last], none⟩ ∧ P ms ∧ Q ns ∧
      slash.IsMark "/" ∧ last.kind = .finish ∧
      emitted (ms ++ (slash, true) :: ns) ++ (last.emit true).toList =
        (frontErased ++ " /" ++ backErased).toList := by
  obtain ⟨rest, hrest⟩ := List.head?_eq_some_iff.mp hback
  obtain ⟨ms, hms, hwritten, hP⟩ := h 0
  obtain ⟨ns, hns, hwritten', hQ⟩ := h' (front.toList.length + 2)
  obtain ⟨slash, hslash⟩ : ∃ slash : Token,
      slash = ⟨.punctuator, " ", "/", front.toList.length + 1⟩ := ⟨_, rfl⟩
  have hkind : slash.kind = .punctuator := by rw [hslash]
  have hlead : slash.leading = " " := by rw [hslash]
  have htext : slash.text = "/" := by rw [hslash]
  have hstart : slash.start = front.toList.length + slash.leading.toList.length := by simp [hslash]
  have hformed := formed_slash hkind htext
  have hcharacters : slash.characters = [' ', '/'] := by simp [Token.characters, hlead, htext]
  have hends : slash.EndsBefore back.toList := by
    rw [Token.EndsBefore, hkind, hrest, htext]
    exact ⟨punctuatorLength_append (p := ['/']) (by decide) (by decide) (by decide), by simp,
      by simp⟩
  have hfits : slash.FitsBehind (ms.map Prod.fst).reverse := by
    intro _
    rw [hdivides ms hP, hkind]
    simp
  have hsource : (front ++ " /" ++ back).toList =
      front.toList ++ (slash.characters ++ back.toList) := by
    simp [hcharacters]
  have hbehind := hformed.triviaTail_characters
    (by simpa [hlead] using Trivia.blank (c := ' ') (by decide) .none) hends hfits
  obtain ⟨cs, htail, hread⟩ := hns.exists_readFrom (slash :: (ms.map Prod.fst).reverse)
    (show triviaTail [] = .ok [] by simp [triviaTail]) (by simp)
  rw [List.append_nil] at htail hread
  have hwhole := hms.readTokens_eq hsource hmark hbehind (by simpa [hcharacters] using hspace)
  rw [hformed.readFrom_eq hends hfits hstart htail, hcharacters,
    show front.toList.length + [' ', '/'].length = front.toList.length + 2 from rfl, hread,
    readFrom_nil] at hwhole
  refine ⟨ms, ns, slash, _, by simpa using hwhole, hP, hQ, ⟨hkind, htext⟩, rfl, ?_⟩
  rw [emitted_append, hwritten, show emitted ((slash, true) :: ns) =
    (slash.emit true).toList ++ emitted ns from rfl, hwritten', toList_emit_kept, hcharacters]
  simp [Token.emit]

end Workflow.Script
