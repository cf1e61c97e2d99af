import Workflow.Script.Index
import Workflow.Script.Token.Lexer

/-!
# Tokens with paired brackets

A script whose brackets pair up is kept as a table: the tokens by index, and for
every bracket the index of its partner. Brackets are paired in one pass with a
stack of open ones, so pairs nest. The first bracket that does not fit is the
fault of the script; if all fit, it is the literal or comment that stopped the
reading, and after that the innermost bracket still open.
-/

namespace Workflow.Script

/-- The shape of the bracket that a token opens. -/
def Token.opens? (t : Token) : Option Bracket :=
  if t.is "(" then some .round
  else if t.is "[" then some .square
  else if t.is "\x7b" then some .curly
  else none

/-- The shape of the bracket that a token closes. -/
def Token.closes? (t : Token) : Option Bracket :=
  if t.is ")" then some .round
  else if t.is "]" then some .square
  else if t.is "\x7d" then some .curly
  else none

/-- A bracket that waits for its closing partner. -/
structure OpenBracket where
  /-- The shape of the bracket. -/
  shape : Bracket
  /-- The index of its token. -/
  index : Nat
  /-- The place of its token in the source. -/
  start : Nat
  deriving DecidableEq, Repr

/-- The partners found so far and the brackets still open, innermost first. -/
structure Pairing where
  /-- For every token the index of the bracket it pairs with. -/
  partner : Array (Option Nat)
  /-- The open brackets, innermost first. -/
  opened : List OpenBracket
  deriving DecidableEq, Repr

/-- Pairs two indices with each other. -/
def Pairing.link (p : Pairing) (i j : Nat) : Array (Option Nat) :=
  (p.partner.setIfInBounds i (some j)).setIfInBounds j (some i)

/-- Takes one more token, which has the given index, into the pairing. -/
def Pairing.take (p : Pairing) (index : Nat) (t : Token) : Except Fault Pairing :=
  match t.opens? with
  | some shape => .ok { p with opened := ⟨shape, index, t.start⟩ :: p.opened }
  | none =>
    match t.closes? with
    | none => .ok p
    | some shape =>
      match p.opened with
      | [] => .error ⟨.unopened shape, t.start⟩
      | inner :: outer =>
        if inner.shape = shape then .ok ⟨p.link inner.index index, outer⟩
        else .error ⟨.mismatched inner.shape shape, t.start⟩

/-- Takes tokens into the pairing, the first of which has the given index. -/
def Pairing.takeAll (p : Pairing) (index : Nat) : List Token → Except Fault Pairing
  | [] => .ok p
  | t :: rest =>
    match p.take index t with
    | .error fault => .error fault
    | .ok next => next.takeAll (index + 1) rest

/-- Tokens by index together with the partners of the brackets among them. -/
structure TokenTable where
  /-- The tokens; the last one is the end of the source. -/
  tokens : Array Token
  /-- For every token the index of the bracket it pairs with. -/
  partner : Array (Option Nat)
  deriving DecidableEq, Repr

/-- The table of a source whose literals end and whose brackets pair up. -/
def tokenize (source : String) : Except Fault TokenTable :=
  let reading := readTokens source
  match (Pairing.mk (Array.replicate reading.tokens.length none) []).takeAll 0 reading.tokens with
  | .error fault => .error fault
  | .ok pairing =>
    match reading.fault with
    | some fault => .error ⟨fault.cause, source.length - fault.remaining⟩
    | none =>
      match pairing.opened with
      | [] => .ok ⟨reading.tokens.toArray, pairing.partner⟩
      | inner :: _ => .error ⟨.neverClosed inner.shape, inner.start⟩

namespace TokenTable

variable (table : TokenTable)

/-- The index of the token that ends the source. -/
def finish : Nat := table.tokens.size - 1

/-- What the token at an index is; beyond the last one the source has ended. -/
def kind (i : Nat) : TokenKind := (table.tokens[i]?.map (·.kind)).getD .finish

/-- The text of the token at an index. -/
def text (i : Nat) : String := (table.tokens[i]?.map (·.text)).getD ""

/-- Whether the token at an index is the given word or punctuator. -/
def is (i : Nat) (text : String) : Bool := table.tokens[i]?.any (·.is text)

/-- Whether the token at an index is a word. -/
def isWord (i : Nat) : Bool := table.kind i == .word

/-- Whether the token at an index is one of the listed words or punctuators. -/
def isOneOf (i : Nat) (words : List String) : Bool := words.contains (table.text i)

/-- Whether the token at an index is the first on its line. -/
def startsLine (i : Nat) : Bool := table.tokens[i]?.any Token.startsLine

/-- The index of the bracket that closes the one at `i`; a token that opens no bracket
stands for itself, so the answer never lies before `i`. -/
def closeOf (i : Nat) : Nat :=
  match table.partner[i]? with
  | some (some j) => max i j
  | _ => i

/-- The fault that refuses the token at an index. -/
def fault (i : Nat) (cause : Cause) : Fault :=
  ⟨cause, (table.tokens[min i table.finish]?.map (·.start)).getD 0⟩

/-- The closing partner of a bracket never lies before it. -/
theorem le_closeOf (i : Nat) : i ≤ table.closeOf i := by
  unfold closeOf
  split
  · exact Nat.le_max_left _ _
  · exact Nat.le_refl _

/-- What lies beyond the closing partner of a bracket lies beyond the bracket. -/
theorem lt_of_closeOf_lt {i e : Nat} (h : table.closeOf i + 1 < e) : i < e :=
  Nat.lt_of_le_of_lt (table.le_closeOf i) (Nat.lt_of_succ_lt h)

/-- What does not lie before the token behind the closing partner of a bracket does not
lie before the bracket. -/
theorem le_of_closeOf_le {i e : Nat} (h : table.closeOf i + 1 ≤ e) : i ≤ e :=
  Nat.le_of_lt (Nat.lt_of_le_of_lt (table.le_closeOf i) h)

/-- What does not lie before the token behind the closing partner of a bracket lies beyond
the bracket. -/
theorem lt_of_closeOf_le {i e : Nat} (h : table.closeOf i + 1 ≤ e) : i < e :=
  Nat.lt_of_le_of_lt (table.le_closeOf i) h

/-- What lies beyond the second token behind the closing partner of a bracket lies beyond the
bracket. -/
theorem lt_of_closeOf_two_lt {i e : Nat} (h : table.closeOf i + 2 < e) : i < e :=
  Nat.lt_of_le_of_lt (table.le_closeOf i) (Index.lt_of_two_lt h)

/-- What lies beyond a bracket behind a token, beyond its closing partner and beyond a further
token lies beyond the token. -/
theorem lt_of_lt_closeOf_lt {i m n e : Nat} (h : i < m) (h' : table.closeOf m + 1 < n)
    (h'' : n < e) : i < e :=
  Nat.lt_trans h (Nat.lt_trans (table.lt_of_closeOf_lt h') h'')

/-- Only indices of tokens have another kind than the end of the source. -/
theorem lt_size_of_kind_ne {i : Nat} (h : table.kind i ≠ .finish) : i < table.tokens.size := by
  refine Nat.lt_of_not_le fun hi => h ?_
  simp [kind, Array.getElem?_eq_none hi]

/-- Only indices of tokens hold a given word or punctuator. -/
theorem lt_size_of_is {i : Nat} {text : String} (h : table.is i text = true) :
    i < table.tokens.size := by
  refine Nat.lt_of_not_le fun hi => ?_
  simp [is, Array.getElem?_eq_none hi] at h

/-- Only indices of tokens hold a word. -/
theorem lt_size_of_isWord {i : Nat} (h : table.isWord i = true) : i < table.tokens.size := by
  refine table.lt_size_of_kind_ne fun hk => ?_
  simp [isWord, hk] at h

end TokenTable

end Workflow.Script
