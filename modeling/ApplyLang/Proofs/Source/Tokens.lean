import ApplyLang.Proofs.Source.Acceptance
import ApplyLang.Proofs.Text.Digits
import Mathlib.Tactic.SplitIfs

/-!
# A text as tokens

Scanning finds the one way to see a text as tokens with trivia between them. Every token covers the
bytes of its characters and ends where nothing that could belong to it follows.

* `Spelled` — a text seen like this; `Token.spelled` — scanning sees it so.
* `SpelledBefore` — a beginning of a text seen like this; `SpelledBefore.scan` — it has its tokens
  whatever follows, as long as the next character is the same.
* `Spelled.split` — a text may be cut in front of any of its tokens.
* `SpelledBefore.slice` — the characters of consecutive tokens have just these tokens.
-/

namespace ApplyLang

open ApplyLang.Text (byteLength byteLength_append)

/-! ## Tokens and their characters -/

/-- The characters of a token. -/
inductive Spells : Symbol → List Char → Prop
  | text {content : List Char} (hc : ∀ c ∈ content, c ≠ '"') :
      Spells (.text content) ('"' :: content ++ ['"'])
  | number {digits : List Char} (hne : digits ≠ []) (hd : ∀ c ∈ digits, c.isDigit = true) :
      Spells (.number digits) digits
  | word {name : List Char} (hw : IsWord name) : Spells (.word name) name
  | opening : Spells .opening ['(']
  | closing : Spells .closing [')']
  | separator : Spells .separator [',']
  | unclosed {content : List Char} : Spells .unclosed ('"' :: content)

/-- The characters that a symbol may begin with. -/
def Symbol.Begins : Symbol → Char → Prop
  | .text _, c | .unclosed, c => c = '"'
  | .number _, c | .word _, c => Token.isWordChar c = true
  | .opening, c => c = '('
  | .closing, c => c = ')'
  | .separator, c => c = ','

theorem Spells.begins {x : Symbol} {w : List Char} (hw : Spells x w) :
    ∃ c rest, w = c :: rest ∧ x.Begins c := by
  cases hw with
  | number hne hd =>
    obtain ⟨c, rest, rfl⟩ := List.exists_cons_of_ne_nil hne
    exact ⟨c, rest, rfl, Token.isWordChar_of_isDigit (hd c List.mem_cons_self)⟩
  | word hw =>
    obtain ⟨c, rest, rfl⟩ := List.exists_cons_of_ne_nil hw.nonempty
    exact ⟨c, rest, rfl, hw.chars c List.mem_cons_self⟩
  | text | opening | closing | separator | unclosed => exact ⟨_, _, rfl, rfl⟩

/-- A text from byte position `p` on as tokens, with trivia in front of each and at the end. A quote
    that no other quote follows takes the rest of the text. -/
inductive Spelled : Nat → List Token → List Char → Prop
  | nil {p : Nat} {g : List Char} (hg : FinalTrivia g) : Spelled p [] g
  | unclosed {p : Nat} {g content : List Char} (hg : Trivia g) (hc : ∀ c ∈ content, c ≠ '"') :
      Spelled p [⟨.unclosed, p + byteLength g, p + byteLength (g ++ '"' :: content)⟩]
        (g ++ '"' :: content)
  | cons {p : Nat} {x : Symbol} {ts : List Token} {g w rest : List Char} (hg : Trivia g)
      (hw : Spells x w) (he : x.EndsBefore rest.head?)
      (hr : Spelled (p + byteLength (g ++ w)) ts rest) :
      Spelled p (⟨x, p + byteLength g, p + byteLength (g ++ w)⟩ :: ts) (g ++ w ++ rest)

theorem FinalTrivia.prepend {g x : List Char} (hg : Trivia g) (hx : FinalTrivia x) :
    FinalTrivia (g ++ x) := by
  cases hx with
  | closed hx => exact .closed (hg.append hx)
  | comment hx hb =>
    rw [← List.append_assoc]
    exact .comment (hg.append hx) hb

theorem Spelled.prepend {p : Nat} {ts : List Token} {g x : List Char} (hg : Trivia g)
    (hx : Spelled (p + byteLength g) ts x) : Spelled p ts (g ++ x) := by
  cases hx with
  | nil hx => exact .nil (hx.prepend hg)
  | unclosed hx hc =>
    have h := Spelled.unclosed (p := p) (hg.append hx) hc
    simpa [byteLength_append, Nat.add_assoc] using h
  | cons hx hw he hr =>
    rw [Nat.add_assoc, ← byteLength_append, ← List.append_assoc] at hr
    have h := Spelled.cons (p := p) (hg.append hx) hw he hr
    simpa [byteLength_append, Nat.add_assoc] using h

/-- The first token, with nothing in front of it. -/
theorem Spelled.first {p : Nat} {x : Symbol} {ts : List Token} {w rest : List Char}
    (hw : Spells x w) (he : x.EndsBefore rest.head?) (hr : Spelled (p + byteLength w) ts rest) :
    Spelled p (⟨x, p, p + byteLength w⟩ :: ts) (w ++ rest) :=
  Spelled.cons .nil hw he hr

/-! ## Words -/

/-- The beginning of a word, as far as the scanner has come: it cannot become a number any more. -/
structure Begun (digits : List Char) (c : Char) (tail : List Char) : Prop where
  allDigits : ∀ d ∈ digits, d.isDigit = true
  stop : c.isDigit = false
  letter : digits ≠ [] → c.isAlpha = true ∨ c = '_'
  chars : ∀ d ∈ c :: tail, Token.isWordChar d = true

theorem Begun.single {c : Char} (hstop : c.isDigit = false) (hchar : Token.isWordChar c = true) :
    Begun [] c [] :=
  ⟨fun _ hd => absurd hd List.not_mem_nil, hstop, fun h => absurd rfl h, by simpa using hchar⟩

theorem Begun.isWord {digits : List Char} {c : Char} {tail : List Char} (hb : Begun digits c tail) :
    IsWord (digits ++ c :: tail) := by
  refine ⟨by simp, fun d hd => ?_, fun digits' rest heq hne hd hstop => ?_⟩
  · rcases List.mem_append.mp hd with hd | hd
    · exact Token.isWordChar_of_isDigit (hb.allDigits d hd)
    · exact hb.chars d hd
  · obtain ⟨rfl, rfl⟩ := run_unique heq hb.allDigits hd
      (fun d hd => by cases hd; exact hb.stop) hstop
    exact ⟨c, rfl, hb.letter hne⟩

theorem Begun.append {digits : List Char} {c d : Char} {tail : List Char}
    (hb : Begun digits c tail) (hd : Token.isWordChar d = true) : Begun digits c (tail ++ [d]) := by
  refine ⟨hb.allDigits, hb.stop, hb.letter, fun e he => ?_⟩
  rw [← List.cons_append] at he
  rcases List.mem_append.mp he with he | he
  · exact hb.chars e he
  · rw [List.mem_singleton.mp he]
    exact hd

namespace Token

/-! ## Scanning -/

/-- What has been read, from byte position `p` on, of the token or the comment that a scanner stands
    in. -/
inductive Partial (p : Nat) : Mode → List Char → Prop
  | gap : Partial p .gap []
  | comment {body : List Char} (hb : ∀ b ∈ body, Text.endsComment b = false) :
      Partial p .comment ('#' :: body)
  | text {content : List Char} (hc : ∀ c ∈ content, c ≠ '"') :
      Partial p (.text p content.reverse) ('"' :: content)
  | digits {run : List Char} (hne : run ≠ []) (hd : ∀ c ∈ run, c.isDigit = true) :
      Partial p (.digits p run.reverse) run
  | word {digits : List Char} {c : Char} {tail : List Char} (hb : Begun digits c tail) :
      Partial p (.word p (digits ++ c :: tail).reverse) (digits ++ c :: tail)

/-- A new token or comment begins, and the rest is scanned from there. -/
theorem spelled_enter {p : Nat} {c : Char} {rest : List Char}
    (ih : ∀ {mode w p₀}, Partial p₀ mode w → p₀ + byteLength w = p + c.utf8Size →
      Spelled p₀ (scanFrom mode (p + c.utf8Size) rest) (w ++ rest)) :
    Spelled p ((enter p c).1 ++ scanFrom (enter p c).2 (p + c.utf8Size) rest) (c :: rest) := by
  unfold enter
  split_ifs with hws hhash hquote hopen hclose hcomma hdigit
  · exact Spelled.prepend (.one hws) (ih .gap rfl)
  · subst hhash
    exact ih (@Partial.comment p [] (by simp)) rfl
  · subst hquote
    exact ih (@Partial.text p [] (by simp)) rfl
  · subst hopen
    exact .first .opening trivial (ih .gap rfl)
  · subst hclose
    exact .first .closing trivial (ih .gap rfl)
  · subst hcomma
    exact .first .separator trivial (ih .gap rfl)
  · exact ih (@Partial.digits p [c] (by simp) (by simpa using hdigit)) rfl
  · have hchar : isWordChar c = true := by
      simp [isWordChar, hws, hhash, hquote, hopen, hclose, hcomma]
    exact ih (.word (.single (by simpa using hdigit) hchar)) rfl

/-- What has been read of a token, and all that follows it, is a text as scanning sees it. -/
theorem spelled {p p' : Nat} {mode : Mode} {w : List Char} (hw : Partial p mode w)
    (hp : p + byteLength w = p') (rest : List Char) :
    Spelled p (scanFrom mode p' rest) (w ++ rest) := by
  induction rest generalizing mode w p p' with
  | nil =>
    have hend : Spelled p' [] [] := .nil (.closed .nil)
    rw [List.append_nil]
    cases hw with
    | gap => exact hp ▸ hend
    | comment hb => exact .nil (.comment .nil hb)
    | text hc =>
      rw [← hp]
      exact .unclosed .nil hc
    | digits hne hd =>
      have hfirst := Spelled.first (.number hne hd) (by simp [Symbol.EndsBefore]) (hp ▸ hend)
      simpa [scanFrom, finish, hp] using hfirst
    | word hb =>
      have hfirst := Spelled.first (.word hb.isWord) (by simp [Symbol.EndsBefore]) (hp ▸ hend)
      simpa [scanFrom, finish, hp] using hfirst
  | cons c rest ih =>
    have henter : ∀ p, Spelled p ((enter p c).1 ++ scanFrom (enter p c).2 (p + c.utf8Size) rest)
        (c :: rest) := fun p => spelled_enter fun hw hp => ih hw hp
    -- one more character of what the scanner stands in
    have hlonger : p + byteLength (w ++ [c]) = p' + c.utf8Size := by
      rw [← hp, byteLength_append, byteLength, byteLength]
      omega
    rw [scanFrom_cons]
    cases hw with
    | gap => exact hp ▸ henter p
    | @comment body hb =>
      dsimp only [advance]
      split_ifs with hends
      · have hg : Trivia ('#' :: body ++ [c]) := .comment hb hends .nil
        have hrest := Spelled.prepend hg (p := p) (ih .gap hlonger)
        simpa using hrest
      · have hb' : ∀ b ∈ body ++ [c], Text.endsComment b = false := by
          simpa [or_imp, forall_and, hends] using hb
        simpa using ih (.comment hb') hlonger
    | @text content hc =>
      dsimp only [advance]
      split_ifs with hquote
      · subst hquote
        have hfirst := Spelled.first (p := p) (.text hc) trivial (ih .gap hlonger)
        rw [hlonger] at hfirst
        simpa [show '"'.utf8Size = 1 from rfl] using hfirst
      · have hc' : ∀ d ∈ content ++ [c], d ≠ '"' := by
          simpa [or_imp, forall_and, hquote] using hc
        simpa using ih (.text hc') hlonger
    | digits hne hd =>
      dsimp only [advance]
      split_ifs with hdigit hletter
      · have hd' : ∀ d ∈ w ++ [c], d.isDigit = true := by
          simpa [or_imp, forall_and, hdigit] using hd
        simpa using ih (.digits (by simp) hd') hlonger
      · have hletter' : c.isAlpha = true ∨ c = '_' := by simpa using hletter
        have hbegun : Begun w c [] :=
          ⟨hd, by simpa using hdigit, fun _ => hletter', by
            simpa using isWordChar_of_isAlpha hletter'⟩
        simpa using ih (.word hbegun) hlonger
      · have hends : (Symbol.number w).EndsBefore (c :: rest).head? := by
          simpa [Symbol.EndsBefore, hdigit] using hletter
        have hfirst := Spelled.first (p := p) (.number hne hd) hends (hp ▸ henter p')
        simpa [emit, hp] using hfirst
    | @word digits d tail hb =>
      dsimp only [advance]
      split_ifs with hchar
      · have hbegun := hb.append hchar
        have hnext := ih (.word hbegun) (by simpa using hlonger)
        simpa using hnext
      · have hends : (Symbol.word (digits ++ d :: tail)).EndsBefore (c :: rest).head? := by
          simpa [Symbol.EndsBefore] using hchar
        have hfirst := Spelled.first (p := p) (.word hb.isWord) hends (hp ▸ henter p')
        simpa [emit, hp] using hfirst

/-- Tokens of a text. -/
theorem spelled_scan (text : List Char) : Spelled 0 (scan text) text :=
  spelled .gap rfl text

end Token

/-! ## Beginnings of a text -/

/-- A beginning of a text as tokens. What belongs to the last of them depends on the character that
    comes `next`, if there is one. -/
inductive SpelledBefore (next : Option Char) : Nat → List Token → List Char → Prop
  | nil {p : Nat} {g : List Char} (hg : Trivia g) : SpelledBefore next p [] g
  | cons {p : Nat} {x : Symbol} {ts : List Token} {g w rest : List Char} (hg : Trivia g)
      (hw : Spells x w) (he : x.EndsBefore (rest.head?.or next))
      (hr : SpelledBefore next (p + byteLength (g ++ w)) ts rest) :
      SpelledBefore next p (⟨x, p + byteLength g, p + byteLength (g ++ w)⟩ :: ts) (g ++ w ++ rest)

/-- The characters of a token are scanned as that token. -/
theorem Spells.scan {x : Symbol} {w rest : List Char} (hw : Spells x w)
    (he : x.EndsBefore rest.head?) (p : Nat) :
    Token.scanFrom .gap p (w ++ rest) =
      ⟨x, p, p + byteLength w⟩ :: Token.scanFrom .gap (p + byteLength w) rest := by
  cases hw with
  | text hc => exact Token.scan_text hc p rest
  | number hne hd => exact Token.scan_number hne hd p he
  | word hw => exact Token.scan_word hw p he
  | opening | closing | separator => rfl
  | unclosed => exact he.elim

namespace SpelledBefore

variable {next : Option Char} {p : Nat} {ts : List Token} {x : List Char}

/-- The tokens of a beginning come first, whatever follows. -/
theorem scan {y : List Char} (hx : SpelledBefore y.head? p ts x) :
    Token.scanFrom .gap p (x ++ y) = ts ++ Token.scanFrom .gap (p + byteLength x) y := by
  induction hx with
  | nil hg => exact Token.scan_trivia hg _ y
  | @cons p s ts g w rest hg hw he _ ih =>
    rw [← List.head?_append] at he
    have htoken := hw.scan he (p + byteLength g)
    rw [Nat.add_assoc, ← byteLength_append] at htoken
    rw [List.append_assoc, List.append_assoc, Token.scan_trivia hg, htoken, ih]
    simp [byteLength_append, Nat.add_assoc]

theorem mono {next' : Option Char} (hx : SpelledBefore next p ts x)
    (h : ∀ s : Symbol, s.EndsBefore next → s.EndsBefore next') : SpelledBefore next' p ts x := by
  induction hx with
  | nil hg => exact .nil hg
  | @cons p s ts g w rest hg hw he _ ih =>
    refine .cons hg hw ?_ ih
    cases rest with
    | nil => exact h s he
    | cons c rest => exact he

/-- A beginning of a text is a text. -/
theorem scan_end (hx : SpelledBefore next p ts x) : Token.scanFrom .gap p x = ts := by
  have hend : SpelledBefore ([] : List Char).head? p ts x := by
    refine hx.mono fun s he => ?_
    cases s with
    | unclosed => exact he
    | text | number | word | opening | closing | separator => simp [Symbol.EndsBefore]
  simpa [Token.scanFrom, Token.finish] using hend.scan

/-- The text may be cut in front of a token. -/
theorem drop {t : Token} {us : List Token} (hx : SpelledBefore next p (ts ++ t :: us) x) :
    ∃ y z, x = y ++ z ∧ SpelledBefore next (p + byteLength y) (t :: us) z ∧
      t.span.start = p + byteLength y := by
  induction ts generalizing p x with
  | nil =>
    cases hx with
    | @cons _ s _ g w rest hg hw he hr =>
      rw [byteLength_append, ← Nat.add_assoc] at hr
      refine ⟨g, w ++ rest, List.append_assoc _ _ _, ?_, rfl⟩
      have hfirst := SpelledBefore.cons .nil hw he hr
      simpa [byteLength_append, byteLength, Nat.add_assoc] using hfirst
  | cons first ts ih =>
    cases hx with
    | @cons _ s _ g w rest hg hw he hr =>
      obtain ⟨y, z, rfl, hz, hstart⟩ := ih hr
      rw [Nat.add_assoc, ← byteLength_append] at hz hstart
      exact ⟨g ++ w ++ y, z, (List.append_assoc _ _ _).symm, hz, hstart⟩

/-- The text may be cut behind a token. -/
theorem take {us : List Token} (hx : SpelledBefore next p (ts ++ us) x) {t : Token}
    (ht : t ∈ ts.getLast?) :
    ∃ y z, x = y ++ z ∧ SpelledBefore (z.head?.or next) p ts y ∧
      t.span.stop = p + byteLength y := by
  induction ts generalizing p x with
  | nil => cases ht
  | cons first ts ih =>
    cases hx with
    | @cons _ s _ g w rest hg hw he hr =>
      cases ts with
      | nil =>
        cases ht
        have honly : SpelledBefore (rest.head?.or next) p
            [⟨s, p + byteLength g, p + byteLength (g ++ w)⟩] (g ++ w ++ []) :=
          .cons hg hw (by simpa using he) (.nil .nil)
        rw [List.append_nil] at honly
        exact ⟨g ++ w, rest, rfl, honly, rfl⟩
      | cons second ts =>
        obtain ⟨y, z, rfl, hy, hstop⟩ := ih hr (by simpa using ht)
        rw [List.head?_append, Option.or_assoc] at he
        rw [Nat.add_assoc, ← byteLength_append] at hstop
        exact ⟨g ++ w ++ y, z, (List.append_assoc _ _ _).symm, .cons hg hw he hy, hstop⟩

/-- The characters of consecutive tokens have just these tokens. -/
theorem slice {before after : List Token} {first last : Token} (hfirst : first ∈ ts.head?)
    (hlast : last ∈ ts.getLast?) (hx : SpelledBefore next p (before ++ ts ++ after) x) :
    ∃ y piece z, x = y ++ piece ++ z ∧
      SpelledBefore (z.head?.or next) (p + byteLength y) ts piece ∧
      first.span.start = p + byteLength y ∧ last.span.stop = p + byteLength (y ++ piece) := by
  obtain ⟨ts, rfl⟩ := List.head?_eq_some_iff.mp hfirst
  rw [List.append_assoc, List.cons_append] at hx
  obtain ⟨y, z, rfl, hz, hstart⟩ := hx.drop
  rw [← List.cons_append] at hz
  obtain ⟨piece, z, rfl, hpiece, hstop⟩ := hz.take hlast
  rw [Nat.add_assoc, ← byteLength_append] at hstop
  exact ⟨y, piece, z, (List.append_assoc _ _ _).symm, hpiece, hstart, hstop⟩

end SpelledBefore

/-- A text cut in front of one of its tokens, or behind all of them. -/
theorem Spelled.split {p : Nat} {ts us : List Token} {text : List Char}
    (hs : Spelled p (ts ++ us) text) (hts : ∀ t ∈ ts, t.symbol ≠ .unclosed) :
    ∃ x y, text = x ++ y ∧ SpelledBefore y.head? p ts x ∧ Spelled (p + byteLength x) us y ∧
      ∀ t ∈ us.head?, t.span.start = p + byteLength x ∧
        ∃ c rest, y = c :: rest ∧ t.symbol.Begins c := by
  induction ts generalizing p text with
  | nil =>
    cases hs with
    | nil hg => exact ⟨[], text, rfl, .nil .nil, .nil hg, by simp⟩
    | @unclosed _ g content hg hc =>
      refine ⟨g, '"' :: content, rfl, .nil hg, ?_, ?_⟩
      · have hopen := Spelled.unclosed (p := p + byteLength g) .nil hc
        simpa [byteLength_append, byteLength, Nat.add_assoc] using hopen
      · intro t ht
        cases ht
        exact ⟨rfl, '"', content, rfl, rfl⟩
    | @cons _ x us g w rest hg hw he hr =>
      refine ⟨g, w ++ rest, List.append_assoc _ _ _, .nil hg, ?_, ?_⟩
      · rw [byteLength_append, ← Nat.add_assoc] at hr
        have hfirst := Spelled.first hw he hr
        simpa [byteLength_append, Nat.add_assoc] using hfirst
      · intro t ht
        cases ht
        obtain ⟨c, w, rfl, hc⟩ := hw.begins
        exact ⟨rfl, c, w ++ rest, rfl, hc⟩
  | cons t ts ih =>
    generalize htokens : t :: ts ++ us = all at hs
    cases hs with
    | nil => cases htokens
    | unclosed =>
      obtain ⟨rfl, -⟩ := List.cons.inj htokens
      exact absurd rfl (hts _ List.mem_cons_self)
    | @cons _ s _ g w rest hg hw he hr =>
      obtain ⟨rfl, rfl⟩ := List.cons.inj htokens
      obtain ⟨x, y, rfl, hx, hy, hnext⟩ := ih hr fun t ht => hts t (List.mem_cons_of_mem _ ht)
      rw [List.head?_append] at he
      rw [Nat.add_assoc, ← byteLength_append] at hy hnext
      exact ⟨g ++ w ++ x, y, (List.append_assoc _ _ _).symm, .cons hg hw he hx, hy, hnext⟩

/-! ## Places -/

theorem Spells.byteLength_pos {x : Symbol} {w : List Char} (hw : Spells x w) :
    0 < byteLength w := by
  obtain ⟨c, w, rfl, -⟩ := hw.begins
  have hc := c.utf8Size_pos
  rw [byteLength]
  omega

/-- Tokens take some bytes each, and stand one after the other. -/
structure Token.InOrder (ts : List Token) : Prop where
  positive : ∀ t ∈ ts, t.span.start < t.span.stop
  ordered : ts.Pairwise fun a b => a.span.stop ≤ b.span.start

namespace Token.InOrder

variable {ts us : List Token} {first last t t' : Token}

theorem part (hts : InOrder ts) (hus : us <:+: ts) : InOrder us :=
  ⟨fun t ht => hts.positive t (hus.subset ht), hts.ordered.sublist hus.sublist⟩

/-- All of them are between the first and the last. -/
theorem between (hts : InOrder ts) (hfirst : first ∈ ts.head?) (hlast : last ∈ ts.getLast?)
    (ht : t ∈ ts) : first.span.start ≤ t.span.start ∧ t.span.stop ≤ last.span.stop := by
  obtain ⟨hpos, hts⟩ := hts
  obtain ⟨rest, rfl⟩ := List.head?_eq_some_iff.mp hfirst
  obtain ⟨init, hinit⟩ := List.getLast?_eq_some_iff.mp hlast
  constructor
  · rcases List.mem_cons.mp ht with rfl | ht
    · exact Nat.le_refl _
    · have hlt := (List.pairwise_cons.mp hts).1 t ht
      have := hpos first List.mem_cons_self
      omega
  · rw [hinit] at hts hpos ht
    rcases List.mem_append.mp ht with ht | ht
    · have hlt := (List.pairwise_append.mp hts).2.2 t ht last List.mem_cons_self
      have := hpos last List.mem_concat_self
      omega
    · exact Nat.le_of_eq (by rw [List.mem_singleton.mp ht])

/-- What is joined to something later reaches from its own start to the end of the other. -/
theorem join_eq (hts : InOrder (ts ++ us)) (hfirst : first ∈ ts.head?) (hlast : last ∈ ts.getLast?)
    (ht : t ∈ us) (ht' : t' ∈ us) :
    Span.join ⟨first.span.start, last.span.stop⟩ ⟨t.span.start, t'.span.stop⟩ =
      ⟨first.span.start, t'.span.stop⟩ := by
  have hmem := List.mem_of_getLast? hlast
  have hbetween := (hts.part (List.prefix_append ts us).isInfix).between hfirst hlast hmem
  have hpos := hts.positive last (List.mem_append_left us hmem)
  have hpos' := hts.positive t' (List.mem_append_right ts ht')
  have hafter : ∀ u ∈ us, last.span.stop ≤ u.span.start :=
    (List.pairwise_append.mp hts.ordered).2.2 last hmem
  have h := hafter t ht
  have h' := hafter t' ht'
  refine Span.join_eq ?_ ?_
  · show first.span.start ≤ t.span.start
    omega
  · show last.span.stop ≤ t'.span.stop
    omega

end Token.InOrder

/-- The tokens of a text are in order. -/
theorem SpelledBefore.inOrder {next : Option Char} {p : Nat} {ts : List Token} {x : List Char}
    (hx : SpelledBefore next p ts x) : (∀ t ∈ ts, p ≤ t.span.start) ∧ Token.InOrder ts := by
  induction hx with
  | nil => exact ⟨by simp, by simp, .nil⟩
  | @cons p s ts g w rest _ hw _ _ ih =>
    obtain ⟨hbounds, hpos, hordered⟩ := ih
    have htoken := hw.byteLength_pos
    have hlength := byteLength_append g w
    refine ⟨List.forall_mem_cons.mpr ⟨Nat.le_add_right _ _, fun t ht => ?_⟩,
      List.forall_mem_cons.mpr ⟨?_, hpos⟩, .cons hbounds hordered⟩
    · have ht := hbounds t ht
      omega
    · dsimp only
      omega

end ApplyLang
