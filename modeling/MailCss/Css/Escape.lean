/-!
# Names and escapes

Character classes of CSS, and the reading of escapes. A backslash is followed by a character that
stands for itself or by up to six hexadecimal digits and at most one white space, where a carriage
return and a line feed count as one.

Reading is done in two steps. `escapedSpan` splits a text where an unescaped character ends it;
`unescape` resolves the escapes of the text that was split off. The second step sees nothing but
that text.

Main statements: `escapedSpan_append` (the two parts make up the text) and `unescape_plain` (a text
without backslash and NUL is its own meaning).
-/

namespace MailCss.Css

/-- White space between tokens. -/
def isSpace (c : Char) : Bool :=
  c = ' ' || c = '\t' || c = '\n' || c = '\r' || c = '\x0c'

/-- The characters that end a line. -/
def isNewline (c : Char) : Bool := c = '\n' || c = '\r' || c = '\x0c'

/-- The characters that may start a name: letters, the underscore, NUL and all beyond ASCII. -/
def startsName (c : Char) : Bool := c.isAlpha || c = '_' || c = '\x00' || 0x80 ≤ c.toNat

/-- The characters that may stand in a name. -/
def inName (c : Char) : Bool := startsName c || c.isDigit || c = '-'

/-- Whether a text begins with a line break. -/
def startsLine : List Char → Bool
  | [] => false
  | c :: _ => isNewline c

/-- Whether a text begins with an identifier. After a minus, a backslash is taken for an escape
whatever comes behind it. -/
def startsIdent : List Char → Bool
  | [] => false
  | '-' :: c :: _ => startsName c || c = '-' || c = '\\'
  | '\\' :: r => !startsLine r
  | c :: _ => startsName c

/-- The value of a hexadecimal digit. -/
def hexDigit? (c : Char) : Option Nat :=
  if c.isDigit then some (c.toNat - '0'.toNat)
  else if 'a' ≤ c ∧ c ≤ 'f' then some (c.toNat - 'a'.toNat + 10)
  else if 'A' ≤ c ∧ c ≤ 'F' then some (c.toNat - 'A'.toNat + 10)
  else none

/-- What stands for a character that cannot be had. -/
def replacement : Char := '\uFFFD'

/-- The character with a code point, where there is one other than NUL. -/
def charOfCode (n : Nat) : Char := if n ≠ 0 ∧ n.isValidChar then Char.ofNat n else replacement

/-- The meaning of a character that stands for itself. -/
def literal (c : Char) : Char := if c = '\x00' then replacement else c

/-- How far the reading of an escape has come. -/
inductive Escape where
  /-- Outside an escape. -/
  | outside
  /-- Right after the backslash. -/
  | opened
  /-- After hexadecimal digits of this value, with so many more allowed. -/
  | digits (left value : Nat)
  /-- After a carriage return, with which a line feed makes one line break. -/
  | afterReturn
  deriving DecidableEq, Repr

namespace Escape

/-- The state after a character that belongs to the escape, or nothing if it does not. -/
def claims : Escape → Char → Option Escape
  | .outside, _ => none
  | .opened, c =>
    match hexDigit? c with
    | some d => some (.digits 5 d)
    | none => some (if c = '\r' then .afterReturn else .outside)
  | .digits left v, c =>
    match left, hexDigit? c with
    | left + 1, some d => some (.digits left (16 * v + d))
    | _, _ =>
      if isSpace c then some (if c = '\r' then .afterReturn else .outside) else none
  | .afterReturn, c => if c = '\n' then some .outside else none

/-- What an escape has come to mean once `c` follows. An escaped line break means nothing. -/
def meaning (e : Escape) (c : Char) : List Char :=
  match e with
  | .opened =>
    if (hexDigit? c).isSome || isNewline c then [] else [literal c]
  | .digits left v =>
    if 0 < left ∧ (hexDigit? c).isSome then [] else [charOfCode v]
  | .outside | .afterReturn => []

/-- What an escape means where the text ends; `atEnd` is what a lone backslash stands for. -/
def finish (atEnd : List Char) : Escape → List Char
  | .opened => atEnd
  | .digits _ v => [charOfCode v]
  | .outside | .afterReturn => []

end Escape

/-- Splits a text before the first character outside escapes at which `stop` holds; `stop` sees
the character and what follows it. -/
def escapedSpan (stop : Char → List Char → Bool) : Escape → List Char → List Char × List Char
  | _, [] => ([], [])
  | e, c :: r =>
    match e.claims c with
    | some e' =>
      let (a, b) := escapedSpan stop e' r
      (c :: a, b)
    | none =>
      if stop c r then ([], c :: r)
      else
        let (a, b) := escapedSpan stop (if c = '\\' then .opened else .outside) r
        (c :: a, b)

/-- The meaning of a text from a state on. -/
def unescapeFrom (atEnd : List Char) : Escape → List Char → List Char
  | e, [] => e.finish atEnd
  | e, c :: r =>
    e.meaning c ++
      match e.claims c with
      | some e' => unescapeFrom atEnd e' r
      | none =>
        if c = '\\' then unescapeFrom atEnd .opened r
        else literal c :: unescapeFrom atEnd .outside r

/-- The meaning of a name or of an unquoted url: a lone backslash at its end is a replacement
character. -/
def unescape (s : List Char) : List Char := unescapeFrom [replacement] .outside s

/-- The meaning of the text between quotes: a lone backslash at its end means nothing. -/
def unescapeString (s : List Char) : List Char := unescapeFrom [] .outside s

/-- Where a name ends. -/
def endsName (c : Char) (r : List Char) : Bool := !inName c && (c ≠ '\\' || startsLine r)

/-- Splits a text after the name that it begins with. -/
def spanName (s : List Char) : List Char × List Char := escapedSpan endsName .outside s

/-- The two parts make up the text. -/
theorem escapedSpan_append (stop : Char → List Char → Bool) (e : Escape) (s : List Char) :
    (escapedSpan stop e s).1 ++ (escapedSpan stop e s).2 = s := by
  induction s generalizing e with
  | nil => rfl
  | cons c r ih =>
    rw [escapedSpan]
    split
    · simp [ih]
    · split
      · rfl
      · simp [ih]

/-- A text without backslash and NUL is its own meaning. -/
theorem unescape_plain {s : List Char} (h : ∀ c ∈ s, c ≠ '\\' ∧ c ≠ '\x00') : unescape s = s := by
  unfold unescape
  induction s with
  | nil => rfl
  | cons c r ih =>
    have hc := h c List.mem_cons_self
    have hr := ih fun x hx => h x (List.mem_cons_of_mem _ hx)
    simp [unescapeFrom, Escape.claims, Escape.meaning, literal, hc.1, hc.2, hr]

end MailCss.Css
