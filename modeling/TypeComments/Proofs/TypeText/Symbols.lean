import TypeComments.Proofs.TypeText.Alignment
import TypeComments.Proofs.TypeText.Words

/-! The pairs of texts that match up to read-only arrays. Two texts match exactly if they name such
an array on either side and one list of symbols spells both of them: bytes that they share, openings
and closings of arrays. The walk along the texts never goes back, and need not: at each point the
two texts tell which symbol comes next. -/

namespace TypeComments
namespace TypeText

/-- What can come next in an actual and an expected text that match. -/
inductive Symbol
  | byte (b : UInt8)
  | opened (opener : { o : Text // o ∈ openers })
  | closed

namespace Symbol

def actual : Symbol → List UInt8
  | byte b => [b]
  | opened _ => Text.bytes qualifier
  | closed => Text.bytes "[]".toList

def expected : Symbol → List UInt8
  | byte b => [b]
  | opened opener => Text.bytes opener
  | closed => Text.bytes ">".toList

def isOpened : Symbol → Bool
  | opened _ => true
  | _ => false

def isClosed : Symbol → Bool
  | closed => true
  | _ => false

def endsWord : Symbol → Bool
  | byte b => !isWordByte b
  | _ => true

end Symbol

/-- After `a` and `e` in the two texts, every array opens where a word can start. -/
def OpensAtWords (a e : List UInt8) (symbols : List Symbol) : Prop :=
  ∀ front opener back, symbols = front ++ .opened opener :: back →
    wordCanStartAfter (a ++ front.flatMap Symbol.actual) = true ∧
      wordCanStartAfter (e ++ front.flatMap Symbol.expected) = true

structure Spells (symbols : List Symbol) (actual expected : Text) : Prop where
  actual : symbols.flatMap Symbol.actual = Text.bytes actual
  expected : symbols.flatMap Symbol.expected = Text.bytes expected
  words : OpensAtWords [] [] symbols

/-- With `depth` arrays open, no array ends that is not open, and in the end none is. -/
structure Nested (depth : Nat) (symbols : List Symbol) : Prop where
  within : ∀ front, front <+: symbols →
    front.countP Symbol.isClosed ≤ depth + front.countP Symbol.isOpened
  whole : depth + symbols.countP Symbol.isOpened = symbols.countP Symbol.isClosed

/-- The symbols can follow when `depth` arrays are open. The flag says that a word can start. -/
def Follow : (depth : Nat) → (start : Bool) → List Symbol → Prop
  | depth, _, [] => depth = 0
  | depth, _, .byte b :: symbols => Follow depth (!isWordByte b) symbols
  | depth, start, .opened _ :: symbols => start = true ∧ Follow (depth + 1) true symbols
  | depth, _, .closed :: symbols => depth ≠ 0 ∧ Follow (depth - 1) true symbols

theorem opensAtWords_cons {a e : List UInt8} {x : Symbol} {symbols : List Symbol} :
    OpensAtWords a e (x :: symbols) ↔
      (x.isOpened = true → wordCanStartAfter a = true ∧ wordCanStartAfter e = true) ∧
        OpensAtWords (a ++ x.actual) (e ++ x.expected) symbols := by
  constructor
  · intro h
    constructor
    · intro hx
      cases x with
      | opened opener => simpa using h [] opener symbols rfl
      | byte b => cases hx
      | closed => cases hx
    · rintro front opener back rfl
      simpa using h (x :: front) opener back rfl
  · rintro ⟨hx, h⟩ front opener back hsplit
    cases front with
    | nil =>
      obtain ⟨rfl, rfl⟩ := List.cons.inj hsplit
      simpa using hx rfl
    | cons y front =>
      obtain ⟨rfl, hrest⟩ := List.cons.inj hsplit
      simpa using h front opener back hrest

theorem countP_cons (x : Symbol) (symbols : List Symbol) :
    (x :: symbols).countP Symbol.isOpened =
        symbols.countP Symbol.isOpened + x.isOpened.toNat ∧
      (x :: symbols).countP Symbol.isClosed =
        symbols.countP Symbol.isClosed + x.isClosed.toNat := by
  rw [List.countP_cons, List.countP_cons]
  cases x <;> exact ⟨rfl, rfl⟩

theorem nested_nil {depth : Nat} : Nested depth [] ↔ depth = 0 := by
  constructor
  · intro h
    simpa using h.whole
  · rintro rfl
    exact ⟨fun front hfront => by simp [List.prefix_nil.1 hfront], rfl⟩

theorem nested_cons {depth next : Nat} {x : Symbol} {symbols : List Symbol}
    (h : depth + x.isOpened.toNat = next + x.isClosed.toNat) :
    Nested depth (x :: symbols) ↔ Nested next symbols := by
  constructor
  · intro hnested
    constructor
    · intro front hfront
      have hwithin := hnested.within (x :: front) (List.cons_prefix_cons.2 ⟨rfl, hfront⟩)
      have hcount := countP_cons x front
      omega
    · have hwhole := hnested.whole
      have hcount := countP_cons x symbols
      omega
  · intro hnested
    constructor
    · intro front hfront
      cases front with
      | nil => simp
      | cons y front =>
        obtain ⟨rfl, hrest⟩ := List.cons_prefix_cons.1 hfront
        have hwithin := hnested.within front hrest
        have hcount := countP_cons y front
        omega
    · have hwhole := hnested.whole
      have hcount := countP_cons x symbols
      omega

theorem not_nested_closed (symbols : List Symbol) : ¬ Nested 0 (.closed :: symbols) := by
  intro h
  exact absurd (h.within [.closed] (List.cons_prefix_cons.2 ⟨rfl, List.nil_prefix⟩)) (by decide)

theorem wordCanStartAfter_append {u : List UInt8} (hu : u ≠ []) (a : List UInt8) :
    wordCanStartAfter (a ++ u) = wordCanStartAfter u := by
  rw [wordCanStartAfter, wordCanStartAfter, List.getLast?_append_of_ne_nil _ hu]

theorem wordCanStartAfter_actual (a : List UInt8) (x : Symbol) :
    wordCanStartAfter (a ++ x.actual) = x.endsWord := by
  cases x with
  | byte b => simp [Symbol.actual, Symbol.endsWord, wordCanStartAfter]
  | opened opener =>
    have hqualifier : Text.bytes qualifier ≠ [] ∧
        wordCanStartAfter (Text.bytes qualifier) = true := by decide
    exact (wordCanStartAfter_append hqualifier.1 a).trans hqualifier.2
  | closed => exact (wordCanStartAfter_append (by decide) a).trans (by decide)

theorem wordCanStartAfter_expected (e : List UInt8) (x : Symbol) :
    wordCanStartAfter (e ++ x.expected) = x.endsWord := by
  cases x with
  | byte b => simp [Symbol.expected, Symbol.endsWord, wordCanStartAfter]
  | opened opener =>
    have hopeners : ∀ o ∈ openers, Text.bytes o ≠ [] ∧ wordCanStartAfter (Text.bytes o) = true := by
      decide
    obtain ⟨hne, hword⟩ := hopeners opener opener.2
    exact (wordCanStartAfter_append hne e).trans hword
  | closed => exact (wordCanStartAfter_append (by decide) e).trans (by decide)

/-- Symbols can follow exactly if their arrays are nested and open where words can start. -/
theorem follow_iff {depth : Nat} {start : Bool} {a e : List UInt8} {symbols : List Symbol}
    (ha : wordCanStartAfter a = start) (he : wordCanStartAfter e = start) :
    Follow depth start symbols ↔ OpensAtWords a e symbols ∧ Nested depth symbols := by
  induction symbols generalizing depth start a e with
  | nil => simp [Follow, OpensAtWords, nested_nil]
  | cons x symbols ih =>
    have hnext (next : Nat) := @ih next x.endsWord _ _ (wordCanStartAfter_actual a x)
      (wordCanStartAfter_expected e x)
    rw [opensAtWords_cons, ha, he]
    cases x with
    | byte b =>
      rw [Follow, nested_cons rfl]
      simpa [Symbol.isOpened, Symbol.endsWord] using hnext depth
    | opened opener =>
      rw [Follow, @nested_cons depth (depth + 1) (.opened opener) symbols rfl, and_assoc]
      simpa [Symbol.isOpened, Symbol.endsWord] using fun _ => hnext (depth + 1)
    | closed =>
      rw [Follow]
      cases depth with
      | zero => simp [not_nested_closed]
      | succ depth =>
        rw [nested_cons rfl]
        simpa [Symbol.isOpened, Symbol.endsWord] using hnext depth

/-! ### The walk along two texts -/

theorem follow_bytes {u : List UInt8} (hu : u ≠ []) (depth : Nat) (start : Bool)
    (symbols : List Symbol) :
    Follow depth start (u.map .byte ++ symbols) ↔ Follow depth (wordCanStartAfter u) symbols := by
  induction u generalizing start with
  | nil => exact absurd rfl hu
  | cons b u ih =>
    rw [List.map_cons, List.cons_append, Follow]
    cases u with
    | nil => simp [wordCanStartAfter]
    | cons d u => rw [ih (by simp), wordCanStartAfter, wordCanStartAfter, List.getLast?_cons_cons]

def charSymbols (c : Char) : List Symbol := (String.utf8EncodeChar c).map .byte

theorem actual_charSymbols (c : Char) :
    (charSymbols c).flatMap Symbol.actual = String.utf8EncodeChar c := by
  simp [charSymbols, List.flatMap_map, Symbol.actual]

theorem expected_charSymbols (c : Char) :
    (charSymbols c).flatMap Symbol.expected = String.utf8EncodeChar c := by
  simp [charSymbols, List.flatMap_map, Symbol.expected]

theorem follow_charSymbols (c : Char) (depth : Nat) (start : Bool) (symbols : List Symbol) :
    Follow depth start (charSymbols c ++ symbols) ↔ Follow depth (!isWordChar c) symbols := by
  have hlast := any_getLast?_bytes [c]
  simp only [Text.bytes_cons, Text.bytes_nil, List.append_nil, List.getLast?_singleton,
    Option.any_some] at hlast
  rw [charSymbols, follow_bytes String.utf8EncodeChar_ne_nil, wordCanStartAfter, hlast]

/-- The walk leaves symbols behind. -/
theorem exists_symbols_of_alignFrom {depth : Nat} {p q : Option Char} {start : Bool} {a e : Text}
    (h : alignFrom depth p q a e = true) (hp : wordCanStart p = start)
    (hq : wordCanStart q = start) :
    ∃ symbols : List Symbol, symbols.flatMap Symbol.actual = Text.bytes a ∧
      symbols.flatMap Symbol.expected = Text.bytes e ∧ Follow depth start symbols := by
  induction hn : a.length using Nat.strongRecOn generalizing depth p q a e start with
  | ind n ih =>
    subst hn
    rcases alignFrom_cases h with ⟨rfl, rfl, hdepth⟩ | ⟨c, a, e, rfl, rfl, hnext⟩ |
      ⟨a, e, rfl, rfl, hdepth, hnext⟩ | ⟨opener, hopener, a, e, rfl, rfl, hp', -, hnext⟩
    · exact ⟨[], rfl, rfl, hdepth⟩
    · obtain ⟨symbols, hactual, hexpected, hfollow⟩ := ih a.length (by simp) hnext rfl rfl rfl
      refine ⟨charSymbols c ++ symbols, ?_, ?_, (follow_charSymbols c _ _ _).2 hfollow⟩
      · rw [List.flatMap_append, actual_charSymbols, hactual, Text.bytes_cons]
      · rw [List.flatMap_append, expected_charSymbols, hexpected, Text.bytes_cons]
    · have hlength : a.length < ('[' :: ']' :: a).length := by
        rw [List.length_cons, List.length_cons]
        omega
      obtain ⟨symbols, hactual, hexpected, hfollow⟩ := ih a.length hlength hnext rfl rfl rfl
      refine ⟨.closed :: symbols, ?_, ?_, hdepth, hfollow⟩
      · rw [List.flatMap_cons, hactual]
        rfl
      · rw [List.flatMap_cons, hexpected]
        rfl
    · have hlength : a.length < (qualifier ++ a).length := by
        have hnine : qualifier.length = 9 := rfl
        rw [List.length_append, hnine]
        omega
      obtain ⟨symbols, hactual, hexpected, hfollow⟩ := ih a.length hlength hnext rfl rfl rfl
      refine ⟨.opened ⟨opener, hopener⟩ :: symbols, ?_, ?_, hp.symm.trans hp', hfollow⟩
      · rw [List.flatMap_cons, hactual, Text.bytes_append]
        rfl
      · rw [List.flatMap_cons, hexpected, Text.bytes_append]
        rfl

theorem alignFrom_cons (depth : Nat) (p q : Option Char) (c : Char) (a e : Text) :
    alignFrom depth p q (c :: a) (c :: e) = alignFrom depth (some c) (some c) a e := by
  rw [alignFrom, if_pos rfl]

theorem alignFrom_closed {depth : Nat} (hdepth : depth ≠ 0) (p q : Option Char) (a e : Text) :
    alignFrom depth p q ('[' :: ']' :: a) ('>' :: e) =
      alignFrom (depth - 1) (some ']') (some '>') a e := by
  have hclosing : closing? depth ('[' :: ']' :: a) ('>' :: e) = some (a, e) := by
    simp [closing?, hdepth, Text.strip?]
  rw [alignFrom, if_neg (by decide)]
  split
  · rename_i h
    rw [hclosing] at h
    cases h
    rfl
  · rename_i h
    rw [hclosing] at h
    cases h

theorem alignFrom_opened {p q : Option Char} (hp : wordCanStart p = true)
    (hq : wordCanStart q = true) {opener : Text} (hopener : opener ∈ openers) (depth : Nat)
    (a e : Text) :
    alignFrom depth p q (qualifier ++ a) (opener ++ e) =
      alignFrom (depth + 1) (some ' ') (some '<') a e := by
  have hopening : opening? p q (qualifier ++ a) (opener ++ e) = some (a, e) := by
    have harray := arrayAt?_opener hopener e
    rw [arrayAt?, if_pos rfl] at harray
    rw [opening?, hp, hq, Bool.and_self, if_pos rfl, Text.strip?_append, Option.bind_some, harray]
    rfl
  obtain ⟨w, -, hform⟩ := exists_word_of_opener hopener
  have hclosing : closing? depth (qualifier ++ a) (opener ++ e) = none := by
    rw [closing?]
    split <;> rfl
  rw [hform] at hopening hclosing ⊢
  change alignFrom depth p q ('r' :: ("eadonly ".toList ++ a)) _ = _
  rw [alignFrom, if_neg (by decide)]
  split
  · rename_i h
    exact absurd (h.symm.trans hclosing) (by simp)
  · split
    · rename_i h
      cases h.symm.trans hopening
      rfl
    · rename_i h
      exact absurd (h.symm.trans hopening) (by simp)

theorem exists_of_actual_eq_append {u x : List UInt8} {symbols : List Symbol}
    (hu : ∀ b ∈ u, 128 ≤ b.toNat) (h : symbols.flatMap Symbol.actual = u ++ x) :
    ∃ rest, symbols = u.map .byte ++ rest := by
  induction u generalizing symbols with
  | nil => exact ⟨symbols, rfl⟩
  | cons b u ih =>
    have hb : 128 ≤ b.toNat := hu b (by simp)
    cases symbols with
    | nil => cases h
    | cons y symbols =>
      cases y with
      | byte d =>
        obtain ⟨rfl, hrest⟩ := List.cons.inj h
        obtain ⟨rest, rfl⟩ := ih (fun d hd => hu d (by simp [hd])) hrest
        exact ⟨rest, rfl⟩
      | opened opener =>
        obtain ⟨rfl, -⟩ := List.cons.inj h
        exact absurd hb (by decide)
      | closed =>
        obtain ⟨rfl, -⟩ := List.cons.inj h
        exact absurd hb (by decide)

theorem exists_charSymbols {b : UInt8} {symbols : List Symbol} {c : Char} {x : List UInt8}
    (h : (Symbol.byte b :: symbols).flatMap Symbol.actual = String.utf8EncodeChar c ++ x) :
    ∃ rest, .byte b :: symbols = charSymbols c ++ rest := by
  rcases Text.utf8EncodeChar_cases c with ⟨-, hc⟩ | ⟨-, hlarge⟩
  · rw [hc] at h
    obtain ⟨rfl, -⟩ := List.cons.inj h
    exact ⟨symbols, by rw [charSymbols, hc]; rfl⟩
  · exact exists_of_actual_eq_append hlarge h

/-- The walk follows symbols that spell the texts. -/
theorem alignFrom_of_follow {depth : Nat} {p q : Option Char} {start : Bool} {a e : Text}
    {symbols : List Symbol} (hactual : symbols.flatMap Symbol.actual = Text.bytes a)
    (hexpected : symbols.flatMap Symbol.expected = Text.bytes e)
    (hfollow : Follow depth start symbols) (hp : wordCanStart p = start)
    (hq : wordCanStart q = start) : alignFrom depth p q a e = true := by
  induction hn : symbols.length using Nat.strongRecOn generalizing depth p q a e start symbols with
  | ind n ih =>
    subst hn
    cases symbols with
    | nil =>
      obtain rfl := Text.bytes_eq_nil_iff.1 hactual.symm
      obtain rfl := Text.bytes_eq_nil_iff.1 hexpected.symm
      simpa [alignFrom, Follow] using hfollow
    | cons x symbols =>
      cases x with
      | byte b =>
        cases a with
        | nil => cases hactual
        | cons c a =>
          obtain ⟨rest, hsymbols⟩ := exists_charSymbols hactual
          rw [hsymbols] at hactual hexpected hfollow
          rw [List.flatMap_append, actual_charSymbols, Text.bytes_cons,
            List.append_cancel_left_eq] at hactual
          rw [List.flatMap_append, expected_charSymbols] at hexpected
          have hprefix : Text.bytes e = Text.bytes [c] ++ rest.flatMap Symbol.expected := by
            rw [← hexpected]
            simp
          obtain ⟨e, rfl, he⟩ := Text.exists_of_bytes_eq_append hprefix
          have hlength : rest.length < (Symbol.byte b :: symbols).length := by
            have hpos := List.length_pos_iff.2 (String.utf8EncodeChar_ne_nil (c := c))
            rw [hsymbols, List.length_append, charSymbols, List.length_map]
            omega
          rw [List.singleton_append, alignFrom_cons]
          exact ih rest.length hlength hactual he.symm ((follow_charSymbols c _ _ _).1 hfollow)
            rfl rfl rfl
      | opened opener =>
        obtain ⟨rfl, hnext⟩ := hfollow
        obtain ⟨a, rfl, ha⟩ := Text.exists_of_bytes_eq_append hactual.symm
        obtain ⟨e, rfl, he⟩ := Text.exists_of_bytes_eq_append hexpected.symm
        rw [alignFrom_opened hp hq opener.2]
        exact ih symbols.length (by simp) ha.symm he.symm hnext rfl rfl rfl
      | closed =>
        obtain ⟨hdepth, hnext⟩ := hfollow
        obtain ⟨a, rfl, ha⟩ := Text.exists_of_bytes_eq_append hactual.symm
        obtain ⟨e, rfl, he⟩ := Text.exists_of_bytes_eq_append hexpected.symm
        exact (alignFrom_closed hdepth p q a e).trans
          (ih symbols.length (by simp) ha.symm he.symm hnext rfl rfl rfl)

theorem align_iff {actual expected : Text} :
    alignFrom 0 none none actual expected = true ↔
      ∃ symbols, Spells symbols actual expected ∧ Nested 0 symbols := by
  constructor
  · intro h
    obtain ⟨symbols, hactual, hexpected, hfollow⟩ := exists_symbols_of_alignFrom h rfl rfl
    obtain ⟨hwords, hnested⟩ := (follow_iff (a := []) (e := []) rfl rfl).1 hfollow
    exact ⟨symbols, ⟨hactual, hexpected, hwords⟩, hnested⟩
  · rintro ⟨symbols, hspells, hnested⟩
    have hfollow := (follow_iff (a := []) (e := []) rfl rfl).2 ⟨hspells.words, hnested⟩
    exact alignFrom_of_follow hspells.actual hspells.expected hfollow rfl rfl

theorem Spells.standsIn {front back : List Symbol} {opener : { o : Text // o ∈ openers }}
    {actual expected : Text} (h : Spells (front ++ .opened opener :: back) actual expected) :
    StandsIn "readonly".toList actual ∧
      (StandsIn "ReadOnlyArrayOf".toList expected ∨ StandsIn "ReadonlyArray".toList expected) := by
  obtain ⟨hstart, hstart'⟩ := h.words front opener back rfl
  have hactual := h.actual
  have hexpected := h.expected
  rw [List.flatMap_append, List.flatMap_cons] at hactual hexpected
  constructor
  · refine ⟨_, 32 :: back.flatMap Symbol.actual, ?_, hstart, rfl⟩
    rw [← hactual, List.append_assoc]
    rfl
  · obtain ⟨opener, hopener⟩ := opener
    simp only [openers, List.mem_cons, List.not_mem_nil, or_false] at hopener
    rcases hopener with rfl | rfl
    · refine Or.inl ⟨_, 60 :: back.flatMap Symbol.expected, ?_, hstart', rfl⟩
      rw [← hexpected, List.append_assoc]
      rfl
    · refine Or.inr ⟨_, 60 :: back.flatMap Symbol.expected, ?_, hstart', rfl⟩
      rw [← hexpected, List.append_assoc]
      rfl

/-- A type text with read-only arrays, nested to any depth. The flag says that a word can start at
its beginning; arrays stand only where one can. -/
inductive ArrayText : Bool → Type
  | done {start : Bool} : ArrayText start
  | char {start : Bool} (c : Char) (rest : ArrayText (!isWordChar c)) : ArrayText start
  | array (opener : { o : Text // o ∈ openers }) (inside rest : ArrayText true) : ArrayText true

namespace ArrayText

def generic {start : Bool} : ArrayText start → Text
  | done => []
  | char c rest => c :: rest.generic
  | array opener inside rest => opener ++ (inside.generic ++ '>' :: rest.generic)

def plain {start : Bool} : ArrayText start → Text
  | done => []
  | char c rest => c :: rest.plain
  | array _ inside rest => qualifier ++ (inside.plain ++ '[' :: ']' :: rest.plain)

def hasArray {start : Bool} : ArrayText start → Bool
  | done => false
  | char _ rest => rest.hasArray
  | array _ _ _ => true

def symbols {start : Bool} : ArrayText start → List Symbol
  | done => []
  | char c rest => charSymbols c ++ rest.symbols
  | array opener inside rest => .opened opener :: (inside.symbols ++ .closed :: rest.symbols)

variable {start : Bool}

theorem actual_symbols (t : ArrayText start) :
    t.symbols.flatMap Symbol.actual = Text.bytes t.plain := by
  induction t with
  | done => rfl
  | char c rest ih =>
    rw [symbols, List.flatMap_append, actual_charSymbols, ih, plain, Text.bytes_cons]
  | array opener inside rest ihInside ihRest =>
    rw [symbols, plain, List.flatMap_cons, List.flatMap_append, List.flatMap_cons, ihInside, ihRest,
      Text.bytes_append, Text.bytes_append]
    rfl

theorem expected_symbols (t : ArrayText start) :
    t.symbols.flatMap Symbol.expected = Text.bytes t.generic := by
  induction t with
  | done => rfl
  | char c rest ih =>
    rw [symbols, List.flatMap_append, expected_charSymbols, ih, generic, Text.bytes_cons]
  | array opener inside rest ihInside ihRest =>
    rw [symbols, generic, List.flatMap_cons, List.flatMap_append, List.flatMap_cons, ihInside,
      ihRest, Text.bytes_append, Text.bytes_append]
    rfl

theorem follow_symbols (t : ArrayText start) {depth : Nat} {after : List Symbol}
    (h : ∀ flag, Follow depth flag after) : Follow depth start (t.symbols ++ after) := by
  induction t generalizing depth after with
  | done => exact h _
  | char c rest ih =>
    rw [symbols, List.append_assoc]
    exact (follow_charSymbols c _ _ _).2 (ih h)
  | array opener inside rest ihInside ihRest =>
    rw [symbols, List.cons_append, List.append_assoc, List.cons_append]
    exact ⟨rfl, ihInside fun _ => ⟨Nat.succ_ne_zero depth, ihRest h⟩⟩

theorem spells (t : ArrayText true) : Spells t.symbols t.plain t.generic ∧ Nested 0 t.symbols := by
  have hfollow : Follow 0 true (t.symbols ++ []) := t.follow_symbols fun _ => rfl
  rw [List.append_nil] at hfollow
  obtain ⟨hwords, hnested⟩ := (follow_iff (a := []) (e := []) rfl rfl).1 hfollow
  exact ⟨⟨t.actual_symbols, t.expected_symbols, hwords⟩, hnested⟩

theorem exists_opened {t : ArrayText start} (h : t.hasArray = true) :
    ∃ front opener back, t.symbols = front ++ .opened opener :: back := by
  induction t with
  | done => cases h
  | char c rest ih =>
    obtain ⟨front, opener, back, hsplit⟩ := ih h
    exact ⟨charSymbols c ++ front, opener, back, by rw [symbols, hsplit, List.append_assoc]⟩
  | array opener inside rest => exact ⟨[], opener, _, rfl⟩

end ArrayText

theorem matchesReadonlyArray_iff {actual expected : Text} :
    matchesReadonlyArray actual expected = true ↔
      StandsIn "readonly".toList actual ∧
      (StandsIn "ReadOnlyArrayOf".toList expected ∨ StandsIn "ReadonlyArray".toList expected) ∧
      ∃ symbols, Spells symbols actual expected ∧ Nested 0 symbols := by
  rw [matchesReadonlyArray, Bool.and_eq_true, Bool.and_eq_true, Bool.or_eq_true,
    holdsWord_iff (by decide), holdsWord_iff (by decide), holdsWord_iff (by decide), align_iff,
    and_assoc]

/-- Two texts match up to read-only arrays exactly if both name one and symbols spell both. So a
text with its arrays as generic types matches the same text with them as `readonly T[]`. -/
theorem matchesReadonlyArray_iff_spelled :
    (∀ actual expected : Text, matchesReadonlyArray actual expected = true ↔
      StandsIn "readonly".toList actual ∧
      (StandsIn "ReadOnlyArrayOf".toList expected ∨ StandsIn "ReadonlyArray".toList expected) ∧
      ∃ symbols, Spells symbols actual expected ∧ Nested 0 symbols) ∧
    ∀ t : ArrayText true, t.hasArray = true → matchesReadonlyArray t.plain t.generic = true := by
  refine ⟨fun _ _ => matchesReadonlyArray_iff, fun t ht => ?_⟩
  obtain ⟨hspells, hnested⟩ := t.spells
  obtain ⟨front, opener, back, hsplit⟩ := ArrayText.exists_opened ht
  obtain ⟨hactual, hexpected⟩ := (hsplit ▸ hspells).standsIn
  exact matchesReadonlyArray_iff.2 ⟨hactual, hexpected, t.symbols, hspells, hnested⟩

def nestedArrays : ArrayText true :=
  .char 'é' (.array ⟨"ReadonlyArray<".toList, by decide⟩
    (.array ⟨"ReadOnlyArrayOf<".toList, by decide⟩ (.char 'X' .done) (.char '[' (.char ']' .done)))
    (.char '|' .done))

theorem nestedArrays_match :
    nestedArrays.plain = "éreadonly readonly X[][][]|".toList ∧
    nestedArrays.generic = "éReadonlyArray<ReadOnlyArrayOf<X>[]>|".toList ∧
    matchesReadonlyArray nestedArrays.plain nestedArrays.generic = true :=
  ⟨by decide, by decide, matchesReadonlyArray_iff_spelled.2 nestedArrays (by decide)⟩

end TypeText
end TypeComments
