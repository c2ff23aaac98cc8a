import Mathlib.Data.List.Forall2
import Elaboration.Term.Printer
import Elaboration.Proofs.Term.Spine

/-!
# Printed terms can be read

A reader keeps what it has read so far at each open parenthesis, and takes any blanks outside quotes
as one space. It reads every printed term back, whatever the layout, and every written one.
-/

namespace Elaboration

open List

/-! ### Reading -/

namespace Reader

/-- What the reader is in the middle of; characters and terms are kept with the latest first. -/
inductive Mode where
  /-- A word, or nothing if there are no characters. -/
  | word (cs : List Char)
  | quoted (cs : List Char)
  /-- After a backslash. -/
  | escaped (cs : List Char)
  /-- The digits of a code point. -/
  | code (cs : List Char) (n : Nat)

/-- What was read: at each open parenthesis, the applications so far. -/
structure State where
  stack : List (Option Term) := [none]
  mode : Mode := .word []

/-- Applies what was read last to a term. -/
def put (t : Term) : List (Option Term) → List (Option Term)
  | [] => []
  | none :: rest => some t :: rest
  | some f :: rest => some (f.app t) :: rest

/-- Closes a parenthesis. -/
def close : List (Option Term) → List (Option Term)
  | some t :: rest => put t rest
  | _ => []

/-- The value of decimal digits. -/
def number (cs : List Char) : Nat := Nat.ofDigitChars 10 cs 0

/-- The term that a word stands for. -/
def atom : List Char → Term
  | '$' :: cs => .arg (number cs)
  | 'a' :: 'x' :: cs => .postulate (number cs)
  | 'd' :: cs => .decl (number cs)
  | '#' :: cs => .placeholder (number cs)
  | '-' :: cs => .leaf (.integer (-number cs))
  | cs => .leaf (.integer (number cs))

/-- Ends a word. -/
def flush (stack : List (Option Term)) : List Char → List (Option Term)
  | [] => stack
  | cs => put (atom cs.reverse) stack

/-- The value of a hexadecimal digit. -/
def digit (c : Char) : Nat := if c.toNat < 97 then c.toNat - 48 else c.toNat - 87

/-- The character after a backslash. -/
def unescape : Char → Char
  | '0' => '\x00'
  | 't' => '\t'
  | 'r' => '\r'
  | 'n' => '\n'
  | c => c

/-- Reads a character. -/
def step (s : State) (c : Char) : State :=
  match s.mode with
  | .word cs =>
    if c = ' ' ∨ c = '\n' then ⟨flush s.stack cs, .word []⟩
    else if c = '(' then ⟨none :: flush s.stack cs, .word []⟩
    else if c = ')' then ⟨close (flush s.stack cs), .word []⟩
    else if c = '"' then ⟨flush s.stack cs, .quoted []⟩
    else ⟨s.stack, .word (c :: cs)⟩
  | .quoted cs =>
    if c = '"' then ⟨put (.leaf (.text (.ofList cs.reverse))) s.stack, .word []⟩
    else if c = '\\' then ⟨s.stack, .escaped cs⟩
    else ⟨s.stack, .quoted (c :: cs)⟩
  | .escaped cs =>
    if c = 'u' then ⟨s.stack, .code cs 0⟩ else ⟨s.stack, .quoted (unescape c :: cs)⟩
  | .code cs n =>
    if c = '\x7b' then s
    else if c = '\x7d' then ⟨s.stack, .quoted (.ofNat n :: cs)⟩
    else ⟨s.stack, .code cs (16 * n + digit c)⟩

/-- The term that a text stands for. -/
def read (text : String) : Option Term :=
  match text.toList.foldl step {} with
  | ⟨stack, .word cs⟩ =>
    match flush stack cs with
    | [some t] => some t
    | _ => none
  | _ => none

/-! ### Words and quotes -/

variable {cs ds : List Char} {t f : Term} {stack : List (Option Term)}

/-- Read below a parenthesis, or after a term that was not applied to it yet, the text is a term. -/
def Reads (cs : List Char) (t : Term) : Prop := ∀ stack, ∃ stack' w,
  cs.foldl step ⟨stack, .word []⟩ = ⟨stack', .word w⟩ ∧ flush stack' w = put t stack

/-- What ends a word. -/
def separators : List Char := [' ', '\n', '(', ')', '"']

private theorem foldl_word (h : ∀ c ∈ cs, c ∉ separators) (w : List Char) :
    cs.foldl step ⟨stack, .word w⟩ = ⟨stack, .word (cs.reverse ++ w)⟩ := by
  induction cs generalizing w with
  | nil => rfl
  | cons c cs ih =>
    have hc := h c mem_cons_self
    rw [foldl_cons, show step ⟨stack, .word w⟩ c = ⟨stack, .word (c :: w)⟩ by
      simp_all [step, separators], ih fun d hd => h d (mem_cons_of_mem _ hd)]
    simp

private theorem reads_word (pre : List Char) (hpre : ∀ c ∈ pre, c ∉ separators) (n : Nat)
    (h : atom (pre ++ Nat.toDigits 10 n) = t) : Reads (pre ++ Nat.toDigits 10 n) t := by
  intro stack
  have hnot : ∀ c ∈ separators, c.isDigit = false := by simp [separators]
  have hdigits : ∀ c ∈ Nat.toDigits 10 n, c ∉ separators := fun c hc hmem =>
    Bool.noConfusion
      ((hnot c hmem).symm.trans (Nat.isDigit_of_mem_toDigits (by decide) (by decide) hc))
  refine ⟨_, _, foldl_word (forall_mem_append.2 ⟨hpre, hdigits⟩) [], ?_⟩
  rw [append_nil, ← h]
  generalize hw : (pre ++ Nat.toDigits 10 n).reverse = w
  cases w with
  | nil => simp [Nat.toDigits_ne_nil] at hw
  | cons c w => rw [flush, ← hw, reverse_reverse]; simp

private theorem number_toDigits (n : Nat) : number (Nat.toDigits 10 n) = n :=
  Nat.ofDigitChars_ten_toDigits

private theorem reads_integer (n : Int) : Reads (Term.integerChars n) (.leaf (.integer n)) := by
  cases n with
  | ofNat n =>
    refine reads_word [] nofun n ?_
    have hd := fun c => Nat.isDigit_of_mem_toDigits (b := 10) (n := n) (c :=
      c) (by decide) (by decide)
    have hn := number_toDigits n
    rw [nil_append]
    unfold atom
    split <;> simp_all
  | negSucc n =>
    refine reads_word ['-'] (by simp [separators]) (n + 1) ?_
    change Term.leaf (.integer (-(number (Nat.toDigits 10 (n + 1)) : Int))) = _
    rw [number_toDigits]
    rfl

private theorem foldl_code (w : List Char) (n : Nat) :
    (Nat.toDigits 16 n).foldl step ⟨stack, .code w 0⟩ = ⟨stack, .code w n⟩ := by
  have hstep : ∀ m, ∀ d < 16,
      step ⟨stack, .code w m⟩ (Nat.digitChar d) = ⟨stack, .code w (16 * m + d)⟩ := by
    intro m d hd
    have hdigit : ∀ d < 16, Nat.digitChar d ≠ '\x7b' ∧ Nat.digitChar d ≠ '\x7d' ∧
        digit (Nat.digitChar d) = d := by
      decide
    obtain ⟨hopen, hclose, hvalue⟩ := hdigit d hd
    simp [step, hopen, hclose, hvalue]
  induction n using Nat.strongRecOn with
  | _ n ih =>
    by_cases hn : n < 16
    · rw [Nat.toDigits_of_lt_base hn, foldl_cons, hstep 0 n hn, foldl_nil]
      simp
    · rw [Nat.toDigits_of_base_le (by decide) (by omega), foldl_append, ih _ (by omega),
        foldl_cons, hstep _ _ (Nat.mod_lt _ (by decide)), Nat.div_add_mod]
      rfl

private theorem foldl_quoteChar (c : Char) (w : List Char) :
    (Text.quoteChar c).foldl step ⟨stack, .quoted w⟩ = ⟨stack, .quoted (c :: w)⟩ := by
  unfold Text.quoteChar
  split_ifs with h0 h1 h2 h3 hq hb
  iterate 6 · subst c; rfl
  · simp [step, hq, hb]
  · rw [Text.codePointEscape, foldl_append, foldl_append,
      show ['\\', 'u', '\x7b'].foldl step ⟨stack, .quoted w⟩ = ⟨stack, .code w 0⟩ from rfl,
        foldl_code]
    simp [step]
  · simp [step, hq, hb]

private theorem reads_text (s : String) :
    Reads (Text.quoteChars s.toList) (.leaf (.text s)) := by
  intro stack
  have hchars : ∀ (cs w : List Char), (cs.flatMap Text.quoteChar).foldl step ⟨stack, .quoted w⟩ =
      ⟨stack, .quoted (cs.reverse ++ w)⟩ := by
    intro cs
    induction cs with
    | nil => exact fun _ => rfl
    | cons c cs ih =>
      intro w
      rw [flatMap_cons, foldl_append, foldl_quoteChar, ih]
      simp
  refine ⟨put (.leaf (.text s)) stack, [], ?_, rfl⟩
  rw [Text.quoteChars, foldl_cons,
    show step ⟨stack, .word []⟩ '"' = ⟨stack, .quoted []⟩ from rfl, foldl_append, hchars]
  simp [step]

private theorem reads_leaf (l : Leaf) : Reads (Term.leafChars l) (.leaf l) := by
  cases l with
  | integer n => exact reads_integer n
  | text s => exact reads_text s

private theorem reads_numbered (pre : List Char) (make : Nat → Term)
    (hatom : ∀ ds, atom (pre ++ ds) = make (number ds))
      (hpre : ∀ c ∈ pre, c ∉ separators) (n : Nat) :
    Reads (pre ++ Nat.toDigits 10 n) (make n) :=
  reads_word pre hpre n (by rw [hatom, number_toDigits])

/-! ### Spines -/

/-- After nothing or a term, a text is read as arguments of it. -/
def Extends (cs : List Char) (before after : Option Term) : Prop := ∀ stack, ∃ stack' w,
  cs.foldl step ⟨before :: stack, .word []⟩ = ⟨stack', .word w⟩ ∧ flush stack' w = after :: stack

private theorem Reads.first (h : Reads cs t) : Extends cs none (some t) :=
  fun stack => h (none :: stack)

private theorem Reads.next (h : Reads cs t) : Extends cs (some f) (some (f.app t)) :=
  fun stack => h (some f :: stack)

private theorem Extends.append {a b c : Option Term} {blanks : List Char} (h : Extends cs a b)
    (hb : blanks ≠ []) (hblank : ∀ x ∈ blanks, x = ' ' ∨ x = '\n') (h' : Extends ds b c) :
    Extends (cs ++ (blanks ++ ds)) a c := by
  intro stack
  obtain ⟨stack1, w, hcs, hflush⟩ := h stack
  have hblanks : ∀ (bs : List Char) (st : List (Option Term)) (w), (∀ x ∈ bs, x = ' ' ∨ x = '\n') →
      bs ≠ [] → bs.foldl step ⟨st, .word w⟩ = ⟨flush st w, .word []⟩ := by
    intro bs
    induction bs with
    | nil => exact fun _ _ _ h => absurd rfl h
    | cons x bs ih =>
      intro st w hx _
      rw [foldl_cons, show step ⟨st, .word w⟩ x = ⟨flush st w, .word []⟩ by
        simp [step, hx x mem_cons_self]]
      cases bs with
      | nil => rfl
      | cons y bs => exact ih _ _ (fun z hz => hx z (mem_cons_of_mem _ hz)) nofun
  rw [foldl_append, hcs, foldl_append, hblanks blanks _ _ hblank hb, hflush]
  exact h' stack

private theorem Extends.parens (h : Extends cs none (some t)) : Reads ('(' :: (cs ++ [')'])) t := by
  intro stack
  obtain ⟨stack', w, hcs, hflush⟩ := h stack
  refine ⟨put t stack, [], ?_, rfl⟩
  rw [foldl_cons, show step ⟨stack, .word []⟩ '(' = ⟨none :: stack, .word []⟩ from rfl,
    foldl_append, hcs]
  simp [step, hflush, close]

private theorem Extends.read (h : Extends cs none (some t)) : read (String.ofList cs) = some t := by
  obtain ⟨stack, w, hcs, hflush⟩ := h []
  rw [Reader.read, String.toList_ofList, hcs]
  simp [hflush]

end Reader

namespace Term

open Reader

private theorem write_append (t : Term) (rest : List Char) : t.write rest = t.write [] ++ rest := by
  induction t generalizing rest with
  | app f x ihf ihx => simp only [write, ihf (' ' :: _), ihx (')' :: _)]; simp
  | _ => simp [write]

private theorem reads_write (t : Term) : Reads (t.write []) t := by
  induction t with
  | app f x ihf ihx =>
    have h := (ihf.first.append (cons_ne_nil ' ' []) (by simp) ihx.next).parens
    rw [write, write_append f, write_append x]
    simpa using h
  | leaf l =>
    rw [write, append_nil]
    exact reads_leaf l
  | arg i =>
    rw [write, append_nil]
    exact reads_numbered ['$'] arg (fun _ => rfl) (by simp [separators]) i
  | postulate id =>
    rw [write, append_nil]
    exact reads_numbered ['a', 'x'] postulate (fun _ => rfl) (by simp [separators]) id
  | decl id =>
    rw [write, append_nil]
    exact reads_numbered ['d'] decl (fun _ => rfl) (by simp [separators]) id
  | placeholder i =>
    rw [write, append_nil]
    exact reads_numbered ['#'] placeholder (fun _ => rfl) (by simp [separators]) i

end Term

/-! ### Layouts -/

namespace Doc

/-- The ways to lay out a document: every line is a space, or the end of a line and an indentation.
-/
inductive Laid : Doc → List Char → Prop where
  | nil : Laid .nil []
  | text (style : Option Style) (s : String) : Laid (.text style s) s.toList
  | space : Laid .line [' ']
  | newline (indent : Nat) : Laid .line ('\n' :: replicate indent ' ')
  | append {a b : Doc} {cs ds : List Char} : Laid a cs → Laid b ds → Laid (.append a b) (cs ++ ds)
  | nest {amount : Int} {a : Doc} {cs : List Char} : Laid a cs → Laid (.nest amount a) cs
  | group {a : Doc} {cs : List Char} : Laid a cs → Laid (.group a) cs

private theorem laid_layout (width : Nat) (a : Doc) (flat : Bool) (indent after column : Nat) :
    Laid a ((a.layout width flat indent after column).1.flatMap (·.plainText.toList)) := by
  induction a generalizing flat indent after column with
  | nil => exact .nil
  | text style s => simpa [layout, Piece.plainText] using Laid.text style s
  | line =>
    cases flat with
    | true => exact .space
    | false => simpa [layout, Piece.plainText] using Laid.newline indent
  | append a b iha ihb =>
    rw [layout, flatMap_append]
    exact .append (iha ..) (ihb ..)
  | nest amount a ih => exact .nest (ih ..)
  | group a ih => exact .group (ih ..)

private theorem laid_render (width : Nat) (a : Doc) : Laid a (a.render width).toList := by
  rw [render, String.toList_join, flatMap_map]
  exact laid_layout width a false 0 0 0

private theorem Laid.blank {cs : List Char} (h : Laid .line cs) :
    cs ≠ [] ∧ ∀ c ∈ cs, c = ' ' ∨ c = '\n' := by
  cases h with
  | space => simp
  | newline => exact ⟨nofun, by simp +contextual [or_imp]⟩

end Doc

namespace Term

open Doc Reader

variable {cfg : PrintConfig} {cs : List Char} {ds : List Doc} {xs : List Term}

/-- However it is laid out, a document is read as a term. -/
def Shows (d : Doc) (t : Term) : Prop := ∀ cs, Laid d cs → Reads cs t

private theorem extends_separated {f : Term} (h : Forall₂ Shows ds xs) (hne : ds ≠ [])
    (hcs : Laid (.separated ds) cs) : Extends cs (some f) (some (f.apply xs)) := by
  induction h generalizing f cs with
  | nil => exact absurd rfl hne
  | @cons d x ds xs hd hrest ih =>
    cases hrest with
    | nil => exact (hd cs hcs).next
    | cons hd' hrest =>
      cases hcs with
      | append hcs hrest' =>
        cases hcs with
        | append hcs hline =>
          have hblank := hline.blank
          rw [append_assoc]
          exact (hd _ hcs).next.append hblank.1 hblank.2 (ih nofun hrest')

private theorem extends_spineDoc {head : Doc} {t : Term} (hhead : Shows head t)
    (h : Forall₂ Shows ds xs)
    (hcs : Laid (spineDoc cfg head ds) cs) : Extends cs none (some (t.apply xs)) := by
  cases h with
  | nil => exact (hhead cs hcs).first
  | cons hd hrest =>
    cases hcs with
    | group hcs =>
      cases hcs with
      | append hcs hargs =>
        cases hargs with
        | nest hargs =>
          cases hargs with
          | append hline hargs =>
            have hblank := hline.blank
            exact (hhead _ hcs).first.append hblank.1 hblank.2
              (extends_separated (.cons hd hrest) nofun hargs)

private theorem exists_head {t : Term} (hcs : Laid (t.docWith cfg .empty ds) cs)
    (ht : ∀ f x, t ≠ app f x) :
    ∃ head, Laid (spineDoc cfg head ds) cs ∧ Shows head t := by
  have hnumbered : ∀ (style : Option Style) (stem : String) (n : Nat),
      spineDoc cfg (.text style (stem ++ toString n)) ds = spineDoc cfg
        (.text style (String.ofList (stem.toList ++ (Nat.toDigits 10 n ++ [])))) ds := by
    intro style stem n
    rw [append_nil, Nat.toString_eq_ofList_toDigits, String.ofList_append, String.ofList_toList]
  obtain ⟨style, hdoc⟩ : ∃ style, t.docWith cfg .empty ds =
      spineDoc cfg (.text style (String.ofList (t.write []))) ds := by
    cases t with
    | app f x => exact absurd rfl (ht f x)
    | arg i => exact ⟨_, hnumbered _ "$" i⟩
    | postulate id => exact ⟨_, hnumbered _ "ax" id⟩
    | decl id => exact ⟨_, hnumbered _ "d" id⟩
    | placeholder i => exact ⟨_, hnumbered _ "#" i⟩
    | leaf l => exact ⟨none, by rw [write, append_nil]; rfl⟩
  refine ⟨_, hdoc ▸ hcs, ?_⟩
  rintro _ ⟨⟩
  rw [String.toList_ofList]
  exact reads_write t

private theorem extends_docWith (t : Term) (h : Forall₂ Shows ds xs)
    (hcs : Laid (t.docWith cfg .empty ds) cs) : Extends cs none (some (t.apply xs)) := by
  induction t generalizing ds xs cs with
  | app f x ihf ihx =>
    refine ihf (.cons (fun cs hcs => ?_) h) hcs
    split at hcs
    · next hx =>
      obtain ⟨head, hcs, hhead⟩ := exists_head hcs fun f y heq => by simp [heq, args_app] at hx
      exact hhead cs hcs
    · cases hcs with
      | append hcs hclose =>
        cases hcs with
        | append hopen hcs =>
          cases hopen
          cases hclose
          exact (ihx .nil hcs).parens
  | _ =>
    obtain ⟨head, hcs, hhead⟩ := exists_head hcs nofun
    exact extends_spineDoc hhead h hcs

private theorem read_of_laid {t : Term} (h : Laid (t.doc cfg .empty) cs) :
    read (.ofList cs) = some t :=
  (extends_docWith t .nil h).read

/-- What is printed is one of the layouts, so reading it gives the term back. -/
theorem read_pretty (t : Term) (cfg : PrintConfig) : read (t.pretty cfg .empty) = some t := by
  have h := read_of_laid (laid_render cfg.width (t.doc cfg .empty))
  rwa [String.ofList_toList] at h

/-- However a term is laid out, reading gives it back, and so it does from the form for debugging:
different terms never print alike. -/
theorem printing_loses_nothing (t : Term) :
    (∀ cfg cs, Laid (t.doc cfg .empty) cs → read (.ofList cs) = some t) ∧
    read t.written = some t ∧
    ∀ u, (∀ cfg cfg' cs, Laid (t.doc cfg .empty) cs → Laid (u.doc cfg' .empty) cs → t = u) ∧
      (t.written = u.written → t = u) := by
  have hwritten : ∀ t, read (written t) = some t := fun t => (reads_write t).first.read
  refine ⟨fun _ _ => read_of_laid, hwritten t, fun u => ⟨fun cfg cfg' cs ht hu => ?_, fun h => ?_⟩⟩
  · exact Option.some.inj ((read_of_laid ht).symm.trans (read_of_laid hu))
  · exact Option.some.inj ((hwritten t).symm.trans (h ▸ hwritten u))

end Term
end Elaboration
