import ApplyLang.Proofs.Source.Layout

/-!
# What is written can be read

Every layout of a tree is read as that tree, wherever it stands. A word or a run of digits ends where
something follows that no word can hold (`Boundary`), which is the case for all that the grammar puts
after an expression.

* `Symbol.EndsBefore` — where a symbol is over.
* `Token.scan_word`, `Token.scan_number`, `Token.scan_text` — leaves are read as one token, which
  covers the bytes of the leaf.
* `Layout.reads` — a layout is read as an expression.
-/

namespace ApplyLang

/-- Whether a symbol is over when a certain character comes next, or the end of the text. A quote that
    no other quote follows is never over. -/
def Symbol.EndsBefore : Symbol → Option Char → Prop
  | .word _, next => ∀ c ∈ next, Token.isWordChar c = false
  | .number _, next => ∀ c ∈ next, c.isDigit = false ∧ ¬ (c.isAlpha = true ∨ c = '_')
  | .unclosed, _ => False
  | _, _ => True

/-- What follows does not go on with a word. -/
def Boundary (rest : List Char) : Prop :=
  ∀ c ∈ rest.head?, Token.isWordChar c = false

theorem Boundary.nil : Boundary [] := by
  simp [Boundary]

theorem Boundary.cons {c : Char} {rest : List Char} (hc : Token.isWordChar c = false) :
    Boundary (c :: rest) := by
  simpa [Boundary] using hc

theorem isWordChar_of_isWhiteSpace {c : Char} (hc : Text.isWhiteSpace c = true) :
    Token.isWordChar c = false := by
  simp [Token.isWordChar, hc]

/-- Trivia in front of a boundary is a boundary. -/
theorem Trivia.boundary {g rest : List Char} (hg : Trivia g) (hr : Boundary rest) :
    Boundary (g ++ rest) := by
  cases hg with
  | nil => exact hr
  | blank hc _ => exact .cons (isWordChar_of_isWhiteSpace hc)
  | comment => exact .cons (by decide)

theorem FinalTrivia.boundary {g : List Char} (hg : FinalTrivia g) : Boundary g := by
  cases hg with
  | closed hg => simpa using hg.boundary .nil
  | comment hg _ => exact hg.boundary (.cons (by decide))

namespace Token

/-! ## Characters -/

theorem enter_of_isWhiteSpace {c : Char} (hc : Text.isWhiteSpace c = true) (p : Nat) :
    enter p c = ([], .gap) := by
  simp [enter, hc]

theorem enter_of_isWordChar {c : Char} (hc : isWordChar c = true) (p : Nat) :
    enter p c = if c.isDigit then ([], .digits p [c]) else ([], .word p [c]) := by
  simp only [isWordChar, Bool.not_eq_true', Bool.or_eq_false_iff, beq_eq_false_iff_ne, ne_eq] at hc
  obtain ⟨⟨⟨⟨⟨hws, hopen⟩, hclose⟩, hcomma⟩, hhash⟩, hquote⟩ := hc
  simp [enter, hws, hopen, hclose, hcomma, hhash, hquote]

/-- Letters and digits are far from white space, and none of the other delimiters. -/
theorem isWordChar_of_isAlphanum {c : Char} (hc : c.isAlphanum = true) : isWordChar c = true := by
  have hws : Text.isWhiteSpace c = false := by
    change ((decide (_ ∧ _) || _ && _) || _ && _) = true at hc
    simp only [Bool.or_eq_true, Bool.and_eq_true, decide_eq_true_eq, ge_iff_le,
      UInt32.le_iff_toNat_le] at hc
    change ((65 ≤ c.val.toNat ∧ c.val.toNat ≤ 90) ∨ 97 ≤ c.val.toNat ∧ c.val.toNat ≤ 122) ∨
      48 ≤ c.val.toNat ∧ c.val.toNat ≤ 57 at hc
    simp only [Text.isWhiteSpace, Char.toNat, Bool.or_eq_false_iff, Bool.and_eq_false_iff,
      decide_eq_false_iff_not, beq_eq_false_iff_ne]
    omega
  have hne : ∀ d : Char, d.isAlphanum = false → (c == d) = false := by
    intro d hd
    rw [beq_eq_false_iff_ne]
    rintro rfl
    rw [hc] at hd
    cases hd
  simp [isWordChar, hws, hne '(' (by decide), hne ')' (by decide), hne ',' (by decide),
    hne '#' (by decide), hne '"' (by decide)]

theorem isWordChar_of_isDigit {c : Char} (hc : c.isDigit = true) : isWordChar c = true :=
  isWordChar_of_isAlphanum (by simp [Char.isAlphanum, hc])

theorem isWordChar_of_isAlpha {c : Char} (hc : c.isAlpha = true ∨ c = '_') :
    isWordChar c = true := by
  rcases hc with hc | rfl
  · exact isWordChar_of_isAlphanum (by simp [Char.isAlphanum, hc])
  · decide

/-- Where no word can go on, no number can. -/
theorem endsNumber_of_boundary {rest digits : List Char} (hr : Boundary rest) :
    (Symbol.number digits).EndsBefore rest.head? := by
  intro c hc
  have hchar := hr c hc
  refine ⟨Bool.eq_false_iff.mpr fun hdigit => ?_, fun hletter => ?_⟩
  · rw [isWordChar_of_isDigit hdigit] at hchar
    cases hchar
  · rw [isWordChar_of_isAlpha hletter] at hchar
    cases hchar

theorem scanFrom_cons (mode : Mode) (p : Nat) (c : Char) (rest : List Char) :
    scanFrom mode p (c :: rest) =
      (advance mode p c).1 ++ scanFrom (advance mode p c).2 (p + c.utf8Size) rest :=
  rfl

/-! ## Runs of characters -/

/-- Characters that are only collected: `mode run` is the mode once `run` has been read. -/
theorem scan_run (mode : List Char → Mode) {collects : Char → Prop}
    (hstep : ∀ run p c, collects c → advance (mode run) p c = ([], mode (c :: run)))
    (p : Nat) (run : List Char) {chars : List Char} (hc : ∀ c ∈ chars, collects c)
    (rest : List Char) :
    scanFrom (mode run) p (chars ++ rest) =
      scanFrom (mode (chars.reverse ++ run)) (p + Text.byteLength chars) rest := by
  induction chars generalizing p run with
  | nil => rfl
  | cons c chars ih =>
    have h := ih (p + c.utf8Size) (c :: run) fun d hd => hc d (List.mem_cons_of_mem _ hd)
    rw [List.cons_append, scanFrom_cons, hstep run p c (hc c List.mem_cons_self), List.nil_append, h]
    simp [Text.byteLength, Nat.add_assoc]

theorem scan_comment (p : Nat) {body : List Char} (hb : ∀ b ∈ body, Text.endsComment b = false)
    (rest : List Char) :
    scanFrom .comment p (body ++ rest) = scanFrom .comment (p + Text.byteLength body) rest :=
  scan_run (fun _ => .comment) (fun _ _ c hc => by simp [advance, hc]) p [] hb rest

theorem scan_content (start p : Nat) (run : List Char) {content : List Char}
    (hc : ∀ c ∈ content, c ≠ '"') (rest : List Char) :
    scanFrom (.text start run) p (content ++ rest) =
      scanFrom (.text start (content.reverse ++ run)) (p + Text.byteLength content) rest :=
  scan_run (.text start) (fun _ _ c hc => by simp [advance, hc]) p run hc rest

theorem scan_digits (start p : Nat) (run : List Char) {digits : List Char}
    (hd : ∀ c ∈ digits, c.isDigit = true) (rest : List Char) :
    scanFrom (.digits start run) p (digits ++ rest) =
      scanFrom (.digits start (digits.reverse ++ run)) (p + Text.byteLength digits) rest :=
  scan_run (.digits start) (fun _ _ c hc => by simp [advance, hc]) p run hd rest

theorem scan_wordChars (start p : Nat) (run : List Char) {name : List Char}
    (hn : ∀ c ∈ name, isWordChar c = true) (rest : List Char) :
    scanFrom (.word start run) p (name ++ rest) =
      scanFrom (.word start (name.reverse ++ run)) (p + Text.byteLength name) rest :=
  scan_run (.word start) (fun _ _ c hc => by simp [advance, hc]) p run hn rest

/-- Before anything but a digit, a letter or an underscore a run of digits is over, and it is a
    number. -/
theorem scan_digits_end (start p : Nat) (run : List Char) {rest : List Char}
    (hr : (Symbol.number run.reverse).EndsBefore rest.head?) :
    scanFrom (.digits start run) p rest =
      ⟨.number run.reverse, start, p⟩ :: scanFrom .gap p rest := by
  cases rest with
  | nil => rfl
  | cons c rest =>
    obtain ⟨hdigit, hletter⟩ := hr c rfl
    simp [scanFrom_cons, advance, hdigit, hletter, emit]

/-- At a boundary a word is over. -/
theorem scan_word_boundary (start p : Nat) (run : List Char) {rest : List Char}
    (hr : Boundary rest) :
    scanFrom (.word start run) p rest =
      ⟨.word run.reverse, start, p⟩ :: scanFrom .gap p rest := by
  cases rest with
  | nil => rfl
  | cons c rest =>
    have hc : isWordChar c = false := hr c rfl
    simp [scanFrom_cons, advance, hc, emit]

/-! ## Trivia and leaves -/

theorem scan_trivia {g : List Char} (hg : Trivia g) (p : Nat) (rest : List Char) :
    scanFrom .gap p (g ++ rest) = scanFrom .gap (p + Text.byteLength g) rest := by
  induction hg generalizing p with
  | nil => rfl
  | @blank c g hc _ ih =>
    have h := ih (p + c.utf8Size)
    rw [Nat.add_assoc] at h
    rw [List.cons_append, scanFrom_cons]
    simpa [advance, enter_of_isWhiteSpace hc, Text.byteLength] using h
  | @comment body g c hb hc _ ih =>
    have h₁ := scan_comment (p + '#'.utf8Size) hb (c :: g ++ rest)
    have h₂ := ih (p + '#'.utf8Size + Text.byteLength body + c.utf8Size)
    have hlength : p + Text.byteLength ('#' :: body ++ c :: g) =
        p + '#'.utf8Size + Text.byteLength body + c.utf8Size + Text.byteLength g := by
      simp only [Text.byteLength_append, Text.byteLength]
      omega
    rw [hlength, List.append_assoc, List.cons_append, scanFrom_cons]
    show scanFrom .comment (p + '#'.utf8Size) (body ++ (c :: g ++ rest)) = _
    rw [h₁, List.cons_append, scanFrom_cons]
    simpa [advance, hc] using h₂

/-- At the end of a text, trivia has no tokens. -/
theorem scan_finalTrivia {g : List Char} (hg : FinalTrivia g) (p : Nat) :
    scanFrom .gap p g = [] := by
  cases hg with
  | closed hg =>
    have h := scan_trivia hg p []
    rw [List.append_nil] at h
    exact h
  | @comment g body hg hb =>
    have h₁ := scan_trivia hg p ('#' :: body)
    have h₂ := scan_comment (p + Text.byteLength g + '#'.utf8Size) hb []
    rw [List.append_nil] at h₂
    rw [h₁]
    exact h₂

theorem scan_text {content : List Char} (hc : ∀ c ∈ content, c ≠ '"') (p : Nat)
    (rest : List Char) :
    scanFrom .gap p ('"' :: content ++ ['"'] ++ rest) =
      ⟨.text content, p, p + Text.byteLength ('"' :: content ++ ['"'])⟩ ::
        scanFrom .gap (p + Text.byteLength ('"' :: content ++ ['"'])) rest := by
  have h := scan_content p (p + '"'.utf8Size) [] hc ('"' :: rest)
  have hlength : p + Text.byteLength ('"' :: content ++ ['"']) =
      p + '"'.utf8Size + Text.byteLength content + '"'.utf8Size := by
    simp only [Text.byteLength_append, Text.byteLength]
    omega
  rw [hlength, List.append_assoc, List.cons_append, scanFrom_cons]
  show scanFrom (.text p []) (p + '"'.utf8Size) (content ++ '"' :: rest) = _
  rw [h, scanFrom_cons]
  simp [advance, show '"'.utf8Size = 1 from rfl]

theorem scan_number {digits : List Char} (hne : digits ≠ []) (hd : ∀ c ∈ digits, c.isDigit = true)
    (p : Nat) {rest : List Char} (hr : (Symbol.number digits).EndsBefore rest.head?) :
    scanFrom .gap p (digits ++ rest) =
      ⟨.number digits, p, p + Text.byteLength digits⟩ ::
        scanFrom .gap (p + Text.byteLength digits) rest := by
  obtain ⟨c, digits, rfl⟩ := List.exists_cons_of_ne_nil hne
  have hc := hd c List.mem_cons_self
  have h := scan_digits p (p + c.utf8Size) [c]
    (fun d hd' => hd d (List.mem_cons_of_mem _ hd')) rest
  rw [List.cons_append, scanFrom_cons, advance, enter_of_isWordChar (isWordChar_of_isDigit hc),
    if_pos hc, List.nil_append, h, scan_digits_end _ _ _ hr]
  simp [Text.byteLength, Nat.add_assoc]

theorem exists_digits_prefix (name : List Char) :
    ∃ digits rest, name = digits ++ rest ∧ (∀ c ∈ digits, c.isDigit = true) ∧
      ∀ c ∈ rest.head?, c.isDigit = false := by
  induction name with
  | nil => exact ⟨[], [], by simp⟩
  | cons c name ih =>
    by_cases hc : c.isDigit = true
    · obtain ⟨digits, rest, rfl, hdigits, hrest⟩ := ih
      exact ⟨c :: digits, rest, rfl, List.forall_mem_cons.mpr ⟨hc, hdigits⟩, hrest⟩
    · exact ⟨[], c :: name, rfl, by simp, by simpa using hc⟩

/-- A word may begin with digits, but it does not stop there. -/
theorem scan_word {name : List Char} (hw : IsWord name) (p : Nat) {rest : List Char}
    (hr : Boundary rest) :
    scanFrom .gap p (name ++ rest) =
      ⟨.word name, p, p + Text.byteLength name⟩ ::
        scanFrom .gap (p + Text.byteLength name) rest := by
  obtain ⟨hne, hchars, hnumber⟩ := hw
  obtain ⟨c, name, rfl⟩ := List.exists_cons_of_ne_nil hne
  have hc := hchars c List.mem_cons_self
  have hname : ∀ d ∈ name, isWordChar d = true := fun d hd => hchars d (List.mem_cons_of_mem _ hd)
  have hfirst := enter_of_isWordChar hc p
  by_cases hdigit : c.isDigit = true
  · obtain ⟨digits, tail, rfl, hdigits, hstop⟩ := exists_digits_prefix name
    obtain ⟨d, hd, halpha⟩ := hnumber (c :: digits) tail rfl (List.cons_ne_nil _ _)
      (List.forall_mem_cons.mpr ⟨hdigit, hdigits⟩) hstop
    obtain ⟨tail, rfl⟩ := List.head?_eq_some_iff.mp hd
    have htail : ∀ x ∈ tail, isWordChar x = true := fun x hx =>
      hname x (List.mem_append_right _ (List.mem_cons_of_mem _ hx))
    have h₁ := scan_digits p (p + c.utf8Size) [c] hdigits (d :: tail ++ rest)
    have h₂ := scan_wordChars p (p + c.utf8Size + Text.byteLength digits + d.utf8Size)
      (d :: (digits.reverse ++ [c])) htail rest
    rw [List.cons_append, scanFrom_cons, advance, hfirst, if_pos hdigit, List.nil_append,
      List.append_assoc, h₁, List.cons_append, scanFrom_cons]
    have hadvance : ∀ q, advance (.digits p (digits.reverse ++ [c])) q d =
        ([], .word p (d :: (digits.reverse ++ [c]))) := by
      simp [advance, hstop d hd, halpha]
    rw [hadvance, List.nil_append, h₂, scan_word_boundary _ _ _ hr]
    simp [Text.byteLength, Text.byteLength_append, Nat.add_assoc]
  · have h := scan_wordChars p (p + c.utf8Size) [c] hname rest
    rw [List.cons_append, scanFrom_cons, advance, hfirst, if_neg hdigit, List.nil_append, h,
      scan_word_boundary _ _ _ hr]
    simp [Text.byteLength, Nat.add_assoc]

end Token

namespace Parser

/-- Reads characters that stand at a byte position between two tokens. -/
def read (q : Parser) (p : Nat) (chars : List Char) : Except ParseError Parser :=
  q.feedAll (Token.scanFrom .gap p chars)

variable {opened : List Opened} {operator node : Node} {bracket : Nat} {arguments : List Node}

theorem read_trivia {g : List Char} (hg : Trivia g) (q : Parser) (p : Nat) (rest : List Char) :
    ∃ p', q.read p (g ++ rest) = q.read p' rest :=
  ⟨_, congrArg q.feedAll (Token.scan_trivia hg p rest)⟩

theorem read_opening (p : Nat) (rest : List Char) :
    read ⟨opened, some node⟩ p ('(' :: rest) =
      read ⟨⟨node, p, []⟩ :: opened, none⟩ (p + 1) rest :=
  rfl

theorem read_separator (p : Nat) (rest : List Char) :
    read ⟨⟨operator, bracket, arguments⟩ :: opened, some node⟩ p (',' :: rest) =
      read ⟨⟨operator, bracket, node :: arguments⟩ :: opened, none⟩ (p + 1) rest :=
  rfl

/-- A bracket closes the list after an argument. -/
theorem read_closing (p : Nat) (rest : List Char) :
    read ⟨⟨operator, bracket, arguments⟩ :: opened, some node⟩ p (')' :: rest) =
      read ⟨opened, some (Opened.close ⟨operator, bracket, node :: arguments⟩ (p + 1))⟩ (p + 1)
        rest :=
  rfl

/-- A bracket closes the list after a comma, or right after the opening bracket. -/
theorem read_closing_after_separator (p : Nat) (rest : List Char) :
    read ⟨⟨operator, bracket, arguments⟩ :: opened, none⟩ p (')' :: rest) =
      read ⟨opened, some (Opened.close ⟨operator, bracket, arguments⟩ (p + 1))⟩ (p + 1) rest :=
  rfl

theorem tree_close (o : Opened) (stop : Nat) :
    (o.close stop).tree = .apply o.operator.tree (o.arguments.reverse.map Node.tree) := by
  rw [Opened.close, Node.tree, Node.treeAll_eq_map]

end Parser

open ApplyLang.Parser

theorem OptionalComma.boundary {comma rest : List Char} (hc : OptionalComma comma)
    (hr : Boundary rest) : Boundary (comma ++ rest) := by
  cases hc with
  | none => exact hr
  | some hg =>
    rw [List.append_assoc]
    exact hg.boundary (.cons (by decide))

/-- After the last argument, the list is closed. -/
theorem Parser.read_end {comma after : List Char} (hc : OptionalComma comma) (hafter : Trivia after)
    (operator : Node) (bracket : Nat) (arguments : List Node) (last : Node) (opened : List Opened)
    (p : Nat) (rest : List Char) :
    ∃ p', read ⟨⟨operator, bracket, arguments⟩ :: opened, some last⟩ p
        (comma ++ (after ++ ')' :: rest)) =
      read ⟨opened, some (Opened.close ⟨operator, bracket, last :: arguments⟩ p')⟩ p' rest := by
  cases hc with
  | none =>
    obtain ⟨p', h⟩ := read_trivia hafter ⟨⟨operator, bracket, arguments⟩ :: opened, some last⟩ p
      (')' :: rest)
    exact ⟨p' + 1, h.trans (read_closing p' rest)⟩
  | @some g hg =>
    obtain ⟨p₁, h₁⟩ := read_trivia hg ⟨⟨operator, bracket, arguments⟩ :: opened, some last⟩ p
      (',' :: (after ++ ')' :: rest))
    obtain ⟨p₂, h₂⟩ := read_trivia hafter ⟨⟨operator, bracket, last :: arguments⟩ :: opened, none⟩
      (p₁ + 1) (')' :: rest)
    refine ⟨p₂ + 1, ?_⟩
    rw [← read_closing_after_separator, ← h₂, ← read_separator, ← h₁]
    simp

/-! ## Layouts -/

mutual

/-- Where an expression may stand, the layout of a tree is read as that tree. -/
theorem Layout.reads : ∀ {t : Tree} {l : List Char}, Layout t l → ∀ (opened : List Opened) (p : Nat)
    {rest : List Char}, Boundary rest →
      ∃ node p', node.tree = t ∧ read ⟨opened, none⟩ p (l ++ rest) = read ⟨opened, some node⟩ p' rest
  | _, _, @Layout.text content hc, opened, p, rest, _ =>
    ⟨.text (String.ofList content) _, _, rfl,
      congrArg (feedAll ⟨opened, none⟩) (Token.scan_text hc p rest)⟩
  | _, l, .number hne hd, opened, p, rest, hr =>
    ⟨.number (Number.ofNat (naturalOf l)) _, _, rfl,
      congrArg (feedAll ⟨opened, none⟩) (Token.scan_number hne hd p (Token.endsNumber_of_boundary hr))⟩
  | _, l, .word hw, opened, p, rest, hr =>
    ⟨.word (String.ofList l) _, _, rfl,
      congrArg (feedAll ⟨opened, none⟩) (Token.scan_word hw p hr)⟩
  | _, _, @Layout.call _ o g g' ho hg hg', opened, p, rest, hr => by
    have hopening : Boundary ('(' :: (g' ++ ')' :: rest)) := .cons (by decide)
    obtain ⟨operator, p₁, htree, h₁⟩ := Layout.reads ho opened p (hg.boundary hopening)
    obtain ⟨p₂, h₂⟩ := read_trivia hg ⟨opened, some operator⟩ p₁ ('(' :: (g' ++ ')' :: rest))
    obtain ⟨p₃, h₃⟩ := read_trivia hg' ⟨⟨operator, p₂, []⟩ :: opened, none⟩ (p₂ + 1) (')' :: rest)
    refine ⟨Opened.close ⟨operator, p₂, []⟩ (p₃ + 1), p₃ + 1, ?_, ?_⟩
    · rw [tree_close, htree]
      rfl
    · rw [← read_closing_after_separator, ← h₃, ← read_opening, ← h₂, ← h₁]
      simp
  | _, _, @Layout.apply _ _ o g before items comma after ho hg hbefore hi hc hafter, opened, p,
      rest, hr => by
    have hclosing : Boundary (')' :: rest) := .cons (by decide)
    have hopening : Boundary ('(' :: (before ++ (items ++ (comma ++ (after ++ ')' :: rest))))) :=
      .cons (by decide)
    obtain ⟨operator, p₁, htree, h₁⟩ := Layout.reads ho opened p (hg.boundary hopening)
    obtain ⟨p₂, h₂⟩ := read_trivia hg ⟨opened, some operator⟩ p₁
      ('(' :: (before ++ (items ++ (comma ++ (after ++ ')' :: rest)))))
    obtain ⟨p₃, h₃⟩ := read_trivia hbefore ⟨⟨operator, p₂, []⟩ :: opened, none⟩ (p₂ + 1)
      (items ++ (comma ++ (after ++ ')' :: rest)))
    obtain ⟨nodes, last, p₄, htrees, h₄⟩ := Items.reads hi operator p₂ opened p₃
      (hc.boundary (hafter.boundary hclosing))
    obtain ⟨p₅, h₅⟩ := read_end hc hafter operator p₂ nodes.reverse last opened p₄ rest
    refine ⟨Opened.close ⟨operator, p₂, last :: nodes.reverse⟩ p₅, p₅, ?_, ?_⟩
    · rw [tree_close, htree, ← htrees]
      simp
    · rw [← h₅, ← h₄, ← h₃, ← read_opening, ← h₂, ← h₁]
      simp

/-- After an opening bracket, arguments are read one after the other. -/
theorem Items.reads : ∀ {ts : List Tree} {l : List Char}, Items ts l → ∀ (operator : Node)
    (bracket : Nat) (opened : List Opened) (p : Nat) {rest : List Char}, Boundary rest →
      ∃ nodes last p', (nodes ++ [last]).map Node.tree = ts ∧
        read ⟨⟨operator, bracket, []⟩ :: opened, none⟩ p (l ++ rest) =
          read ⟨⟨operator, bracket, nodes.reverse⟩ :: opened, some last⟩ p' rest
  | _, _, .one ht, operator, bracket, opened, p, rest, hr => by
    obtain ⟨node, p', htree, h⟩ := Layout.reads ht (⟨operator, bracket, []⟩ :: opened) p hr
    exact ⟨[], node, p', by simp [htree], h⟩
  | _, _, @Items.more _ _ items g g' l hi hg hg' ht, operator, bracket, opened, p, rest, hr => by
    have hcomma : Boundary (',' :: (g' ++ (l ++ rest))) := .cons (by decide)
    obtain ⟨nodes, last, p₁, htrees, h₁⟩ :=
      Items.reads hi operator bracket opened p (hg.boundary hcomma)
    obtain ⟨p₂, h₂⟩ := read_trivia hg ⟨⟨operator, bracket, nodes.reverse⟩ :: opened, some last⟩ p₁
      (',' :: (g' ++ (l ++ rest)))
    obtain ⟨p₃, h₃⟩ := read_trivia hg'
      ⟨⟨operator, bracket, last :: nodes.reverse⟩ :: opened, none⟩ (p₂ + 1) (l ++ rest)
    obtain ⟨node, p₄, htree, h₄⟩ :=
      Layout.reads ht (⟨operator, bracket, last :: nodes.reverse⟩ :: opened) p₃ hr
    refine ⟨nodes ++ [last], node, p₄, ?_, ?_⟩
    · rw [List.map_append, htrees, List.map_singleton, htree]
    · rw [List.reverse_append, List.reverse_singleton, List.singleton_append, ← h₄, ← h₃,
        ← read_separator, ← h₂, ← h₁]
      simp

end

/-- A layout of a tree between trivia is a program, and is read as this tree. -/
theorem parse_of_layout {src : String} {t : Tree} {before l after : List Char}
    (hsrc : src.toList = before ++ l ++ after) (hbefore : Trivia before) (hl : Layout t l)
    (hafter : FinalTrivia after) : ∃ node, parse src = .ok node ∧ node.tree = t := by
  obtain ⟨p₁, h₁⟩ := read_trivia hbefore Parser.start 0 (l ++ after)
  obtain ⟨node, p₂, htree, h₂⟩ := Layout.reads hl [] p₁ hafter.boundary
  refine ⟨node, ?_, htree⟩
  have hread : Parser.start.feedAll (Token.scan src.toList) = .ok ⟨[], some node⟩ := by
    have hend : read ⟨[], some node⟩ p₂ after = .ok ⟨[], some node⟩ :=
      congrArg (feedAll ⟨[], some node⟩) (Token.scan_finalTrivia hafter p₂)
    rw [hsrc, List.append_assoc]
    exact h₁.trans (h₂.trans hend)
  unfold parse parseChars
  rw [hread]
  rfl

/-- A text is a layout of one tree at most. -/
theorem Layout.unique {t t' : Tree} {l : List Char} (ht : Layout t l) (ht' : Layout t' l) :
    t = t' := by
  have hl : (String.ofList l).toList = [] ++ l ++ [] := by simp
  obtain ⟨n, hn, rfl⟩ := parse_of_layout hl .nil ht (.closed .nil)
  obtain ⟨n', hn', rfl⟩ := parse_of_layout hl .nil ht' (.closed .nil)
  rw [hn] at hn'
  cases hn'
  rfl

end ApplyLang
