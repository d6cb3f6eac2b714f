import Mathlib.Data.List.Basic
import IgnoreGates.Text.Ctype

/-!
# Texts in DIMACS format

A text in DIMACS format is written in tokens: white space, numbers, and lines, which are
comments or headers.  `Written ts w` holds when the bytes `w` are the tokens `ts`, each as long
as possible.  The bytes determine the tokens.

The numbers of a text are grouped into clauses: a zero ends a clause, and so does the end of
the text.
-/

namespace Dimacs

open Ctype

/-! ### Tokens -/

/-- What a text consists of.  The text of a line includes its first letter, but not the line
end. -/
inductive Token where
  | blank (b : UInt8)
  | number (minus : Bool) (digits : List UInt8)
  | line (text : List UInt8)
  deriving DecidableEq, Repr

/-- A comment starts with `c` and does not contain a line end. -/
def Comment (text : List UInt8) : Prop :=
  ∃ t, text = 'c'.toUInt8 :: t ∧ ∀ b ∈ t, b ≠ '\n'.toUInt8

/-- A header consists of `p`, `cnf` and two numbers.  There may be line ends in front of the
numbers. -/
inductive Header : List UInt8 → Prop where
  | mk {blanks s₁ vars s₂ clauses s₃ : List UInt8}
      (hblanks : ∀ b ∈ blanks, isblank b = true)
      (hs₁ : ∀ b ∈ s₁, isspace b = true)
      (hvars : ∀ b ∈ vars, isdigit b = true) (hvars_ne : vars ≠ [])
      (hs₂ : ∀ b ∈ s₂, isspace b = true) (hs₂_ne : s₂ ≠ [])
      (hclauses : ∀ b ∈ clauses, isdigit b = true) (hclauses_ne : clauses ≠ [])
      (hs₃ : ∀ b ∈ s₃, isspace b = true ∧ b ≠ '\n'.toUInt8) :
      Header ('p'.toUInt8 :: (blanks ++ (bytesOf ['c', 'n', 'f'] ++ (s₁ ++ (vars ++ (s₂ ++
        (clauses ++ s₃)))))))

/-- The bytes are the tokens, written one behind the other: a number goes up to a byte that is
no digit, a line up to a line end. -/
inductive Written : List Token → List UInt8 → Prop where
  | nil : Written [] []
  | blank {b : UInt8} {ts : List Token} {w : List UInt8} (hb : isspace b = true)
      (h : Written ts w) : Written (.blank b :: ts) (b :: w)
  | number {minus : Bool} {digits : List UInt8} {ts : List Token} {w : List UInt8}
      (hdigits : ∀ d ∈ digits, isdigit d = true) (hne : digits ≠ [])
      (hnext : ∀ b ∈ w.head?, isdigit b = false) (h : Written ts w) :
      Written (.number minus digits :: ts) (spelling minus digits ++ w)
  | line {text : List UInt8} {ts : List Token} {w : List UInt8} (hline : Comment text ∨ Header text)
      (hnext : ∀ b ∈ w.head?, b = '\n'.toUInt8) (h : Written ts w) :
      Written (.line text :: ts) (text ++ w)

/-! ### Uniqueness -/

/-- A longest run of bytes of a kind is determined. -/
theorem span_unique {p : UInt8 → Bool} {xs ys xs' ys' : List UInt8} (h : xs ++ ys = xs' ++ ys')
    (hxs : ∀ x ∈ xs, p x = true) (hys : ∀ y ∈ ys.head?, p y = false)
    (hxs' : ∀ x ∈ xs', p x = true) (hys' : ∀ y ∈ ys'.head?, p y = false) :
  xs = xs' ∧ ys = ys'
  := by
  have htake : ∀ {us vs : List UInt8}, (∀ x ∈ us, p x = true) → (∀ y ∈ vs.head?, p y = false) →
      (us ++ vs).takeWhile p = us := by
    intro us vs hus hvs
    rw [List.takeWhile_append_of_pos hus]
    cases vs with
    | nil => simp
    | cons v vs => simp [hvs v rfl]
  have heq : xs = xs' := by
    rw [← htake hxs hys, h, htake hxs' hys']
  subst heq
  exact ⟨rfl, List.append_cancel_left h⟩

theorem head?_append_of_ne_nil {xs ys : List UInt8} (h : xs ≠ []) :
  (xs ++ ys).head? = xs.head?
  := by
  cases xs with
  | nil => exact absurd rfl h
  | cons x xs => rfl

/-- What a run is followed by starts with another byte. -/
theorem head?_of_forall {p : UInt8 → Prop} {xs : List UInt8} (h : ∀ b ∈ xs, p b) :
  ∀ b ∈ xs.head?, p b
  := fun b hb => h b (List.mem_of_mem_head? hb)

theorem head?_newline (w : List UInt8) :
  ∀ b ∈ ('\n'.toUInt8 :: w).head?, b = '\n'.toUInt8
  := by
  intro b hb
  exact (Option.some_inj.mp hb).symm

/-- A header goes up to its line end. -/
theorem Header.unique {t t' w w' : List UInt8} (ht : Header t) (ht' : Header t')
    (h : t ++ w = t' ++ w') (hw : ∀ b ∈ w.head?, b = '\n'.toUInt8)
    (hw' : ∀ b ∈ w'.head?, b = '\n'.toUInt8) :
  t = t'
  := by
  have hstop : ∀ {s w : List UInt8}, (∀ b ∈ s, isspace b = true ∧ b ≠ '\n'.toUInt8) →
      (∀ b ∈ w.head?, b = '\n'.toUInt8) → ∀ b ∈ (s ++ w).head?, isdigit b = false := by
    intro s w hs hw b hb
    cases s with
    | nil =>
        rw [hw b hb]
        rfl
    | cons c s =>
        obtain rfl := Option.some_inj.mp hb
        exact not_isdigit_of_isspace (hs c List.mem_cons_self).1
  have hspaces : ∀ {s w : List UInt8}, s ≠ [] → (∀ b ∈ s, isspace b = true) →
      ∀ b ∈ (s ++ w).head?, isdigit b = false := by
    intro s w hne hs b hb
    rw [head?_append_of_ne_nil hne] at hb
    exact not_isdigit_of_isspace (head?_of_forall hs b hb)
  have hdigits : ∀ {s w : List UInt8}, s ≠ [] → (∀ b ∈ s, isdigit b = true) →
      ∀ b ∈ (s ++ w).head?, isspace b = false := by
    intro s w hne hs b hb
    rw [head?_append_of_ne_nil hne] at hb
    exact not_isspace_of_isdigit (head?_of_forall hs b hb)
  have hcnf : ∀ {w : List UInt8}, ∀ b ∈ (bytesOf ['c', 'n', 'f'] ++ w).head?,
      isblank b = false := by
    intro w b hb
    obtain rfl := Option.some_inj.mp hb
    rfl
  obtain ⟨hblanks, hs₁, hvars, hvars_ne, hs₂, hs₂_ne, hclauses, hclauses_ne, hs₃⟩ := ht
  obtain ⟨hblanks', hs₁', hvars', hvars_ne', hs₂', hs₂_ne', hclauses', hclauses_ne', hs₃'⟩ := ht'
  simp only [List.cons_append, List.append_assoc] at h
  have h₁ := (List.cons.inj h).2
  obtain ⟨rfl, h₂⟩ := span_unique h₁ hblanks hcnf hblanks' hcnf
  have h₃ := (List.append_right_inj _).mp h₂
  obtain ⟨rfl, h₄⟩ := span_unique h₃ hs₁ (hdigits hvars_ne hvars) hs₁' (hdigits hvars_ne' hvars')
  obtain ⟨rfl, h₅⟩ := span_unique h₄ hvars (hspaces hs₂_ne hs₂) hvars' (hspaces hs₂_ne' hs₂')
  obtain ⟨rfl, h₆⟩ := span_unique h₅ hs₂ (hdigits hclauses_ne hclauses) hs₂'
    (hdigits hclauses_ne' hclauses')
  obtain ⟨rfl, h₇⟩ := span_unique h₆ hclauses (hstop hs₃ hw) hclauses' (hstop hs₃' hw')
  obtain ⟨rfl, -⟩ := span_unique (p := (· ≠ '\n'.toUInt8)) h₇
    (fun b hb => by simpa using (hs₃ b hb).2) (fun b hb => by simpa using hw b hb)
    (fun b hb => by simpa using (hs₃' b hb).2) (fun b hb => by simpa using hw' b hb)
  rfl

/-- A comment goes up to its line end. -/
theorem Comment.unique {t t' w w' : List UInt8} (ht : Comment t) (ht' : Comment t')
    (h : t ++ w = t' ++ w') (hw : ∀ b ∈ w.head?, b = '\n'.toUInt8)
    (hw' : ∀ b ∈ w'.head?, b = '\n'.toUInt8) :
  t = t'
  := by
  obtain ⟨t, rfl, ht⟩ := ht
  obtain ⟨t', rfl, ht'⟩ := ht'
  obtain ⟨-, h⟩ := List.cons.inj h
  obtain ⟨rfl, -⟩ := span_unique (p := (· ≠ '\n'.toUInt8)) h (fun b hb => by simpa using ht b hb)
    (fun b hb => by simpa using hw b hb) (fun b hb => by simpa using ht' b hb)
    (fun b hb => by simpa using hw' b hb)
  rfl

/-- What a byte starts: white space, a number or a line. -/
def kind (b : UInt8) : Nat :=
  if isspace b then 0 else if isdigit b ∨ b = '-'.toUInt8 then 1 else 2

def Token.kind : Token → Nat
  | .blank _ => 0
  | .number _ _ => 1
  | .line _ => 2

theorem kind_of_isdigit {b : UInt8} (h : isdigit b = true) :
  kind b = 1
  := by
  rw [kind, if_neg (by rw [not_isspace_of_isdigit h]; exact Bool.false_ne_true), if_pos (Or.inl h)]

/-- A line starts with its letter. -/
theorem line_eq_cons {text : List UInt8} (h : Comment text ∨ Header text) :
  ∃ b t, text = b :: t ∧ (b = 'p'.toUInt8 ∨ b = 'c'.toUInt8)
  := by
  obtain ⟨t, rfl, -⟩ | h := h
  · exact ⟨_, t, rfl, Or.inr rfl⟩
  · cases h
    exact ⟨_, _, rfl, Or.inl rfl⟩

/-- The first byte of a number. -/
theorem spelling_eq_cons (minus : Bool) {digits : List UInt8}
    (hdigits : ∀ d ∈ digits, isdigit d = true) (hne : digits ≠ []) :
  ∃ b t, spelling minus digits = b :: t ∧ kind b = 1
  := by
  cases minus with
  | true => exact ⟨_, digits, rfl, by decide⟩
  | false =>
      obtain ⟨d, ds, rfl⟩ := List.exists_cons_of_ne_nil hne
      exact ⟨d, ds, rfl, kind_of_isdigit (hdigits d List.mem_cons_self)⟩

/-- The first byte tells what the first token is. -/
theorem Written.head {t : Token} {ts : List Token} {w : List UInt8} (h : Written (t :: ts) w) :
  ∃ b v, w = b :: v ∧ Dimacs.kind b = t.kind
  := by
  cases h with
  | @blank b _ v hb h =>
      refine ⟨b, v, rfl, ?_⟩
      rw [Dimacs.kind, if_pos hb]
      rfl
  | @number minus digits _ v hdigits hne hnext h =>
      obtain ⟨b, s, heq, hb⟩ := spelling_eq_cons minus hdigits hne
      rw [heq]
      exact ⟨b, s ++ v, rfl, hb⟩
  | @line text _ v hline hnext h =>
      obtain ⟨b, s, rfl, hb⟩ := line_eq_cons hline
      refine ⟨b, s ++ v, rfl, ?_⟩
      obtain rfl | rfl := hb <;> rfl

/-- A number goes up to its last digit. -/
theorem spelling_unique {m m' : Bool} {ds ds' w w' : List UInt8}
    (h : spelling m ds ++ w = spelling m' ds' ++ w') (hds : ∀ d ∈ ds, isdigit d = true)
    (hne : ds ≠ []) (hw : ∀ b ∈ w.head?, isdigit b = false) (hds' : ∀ d ∈ ds', isdigit d = true)
    (hne' : ds' ≠ []) (hw' : ∀ b ∈ w'.head?, isdigit b = false) :
  m = m' ∧ ds = ds' ∧ w = w'
  := by
  have hminus : ∀ {ds s s' : List UInt8}, (∀ d ∈ ds, isdigit d = true) → ds ≠ [] →
      '-'.toUInt8 :: s ≠ ds ++ s' := by
    intro ds s s' hds hne heq
    obtain ⟨d, ds, rfl⟩ := List.exists_cons_of_ne_nil hne
    have hd := hds d List.mem_cons_self
    rw [← (List.cons.inj heq).1] at hd
    exact absurd hd (by decide)
  cases m with
  | true =>
      cases m' with
      | true => exact ⟨rfl, span_unique (List.cons.inj h).2 hds hw hds' hw'⟩
      | false => exact absurd h (hminus hds' hne')
  | false =>
      cases m' with
      | true => exact absurd h.symm (hminus hds hne)
      | false => exact ⟨rfl, span_unique h hds hw hds' hw'⟩

theorem line_unique {t t' w w' : List UInt8} (ht : Comment t ∨ Header t)
    (ht' : Comment t' ∨ Header t') (h : t ++ w = t' ++ w')
    (hw : ∀ b ∈ w.head?, b = '\n'.toUInt8) (hw' : ∀ b ∈ w'.head?, b = '\n'.toUInt8) :
  t = t'
  := by
  have hletters : ∀ {t t' w w' : List UInt8}, Comment t → Header t' → t ++ w ≠ t' ++ w' := by
    intro t t' w w' ht ht' heq
    obtain ⟨s, rfl, -⟩ := ht
    cases ht'
    exact absurd (List.cons.inj heq).1 (by decide)
  obtain ht | ht := ht
  · obtain ht' | ht' := ht'
    · exact ht.unique ht' h hw hw'
    · exact absurd h (hletters ht ht')
  · obtain ht' | ht' := ht'
    · exact absurd h.symm (hletters ht' ht)
    · exact ht.unique ht' h hw hw'

/-- The bytes determine the tokens. -/
theorem Written.unique {ts ts' : List Token} {w : List UInt8} (h : Written ts w)
    (h' : Written ts' w) :
  ts = ts'
  := by
  induction h generalizing ts' with
  | nil =>
      cases ts' with
      | nil => rfl
      | cons t' ts' =>
          obtain ⟨b, v, heq, -⟩ := h'.head
          cases heq
  | @blank b ts w hb h ih =>
      cases ts' with
      | nil => cases h'
      | cons t' ts' =>
          obtain ⟨b', v, heq, hkind⟩ := h'.head
          obtain ⟨rfl, rfl⟩ := List.cons.inj heq
          rw [Dimacs.kind, if_pos hb] at hkind
          cases t' with
          | blank b' =>
              cases h' with
              | blank hb' h' => rw [ih h']
          | number minus digits => cases hkind
          | line text => cases hkind
  | @number minus digits ts w hdigits hne hnext h ih =>
      obtain ⟨b, s, hs, hkind⟩ := spelling_eq_cons minus hdigits hne
      generalize hv : spelling minus digits ++ w = v at h'
      cases ts' with
      | nil =>
          cases h'
          rw [hs] at hv
          cases hv
      | cons t' ts' =>
          obtain ⟨b', v', rfl, hkind'⟩ := h'.head
          have hb : b = b' := by
            rw [hs] at hv
            exact (List.cons.inj hv).1
          rw [← hb, hkind] at hkind'
          cases t' with
          | blank b' => cases hkind'
          | line text => cases hkind'
          | number minus' digits' =>
              generalize hv' : b' :: v' = u at h' hv
              cases h' with
              | number hdigits' hne' hnext' h' =>
                  obtain ⟨rfl, rfl, rfl⟩ := spelling_unique hv hdigits hne hnext hdigits' hne' hnext'
                  rw [ih h']
  | @line text ts w hline hnext h ih =>
      obtain ⟨b, s, hs, hletter⟩ := line_eq_cons hline
      have hkind : Dimacs.kind b = 2 := by
        obtain rfl | rfl := hletter <;> rfl
      generalize hv : text ++ w = v at h'
      cases ts' with
      | nil =>
          cases h'
          rw [hs] at hv
          cases hv
      | cons t' ts' =>
          obtain ⟨b', v', rfl, hkind'⟩ := h'.head
          have hb : b = b' := by
            rw [hs] at hv
            exact (List.cons.inj hv).1
          rw [← hb, hkind] at hkind'
          cases t' with
          | blank b' => cases hkind'
          | number minus digits => cases hkind'
          | line text' =>
              generalize hv' : b' :: v' = u at h' hv
              cases h' with
              | line hline' hnext' h' =>
                  obtain rfl := line_unique hline hline' hv hnext hnext'
                  obtain rfl := (List.append_right_inj _).mp hv
                  rw [ih h']

/-- The lines of a text are comments or headers. -/
theorem Written.line_of_mem {ts : List Token} {w text : List UInt8} (h : Written ts w)
    (hmem : Token.line text ∈ ts) :
  Comment text ∨ Header text
  := by
  induction h with
  | nil => cases hmem
  | blank hb h ih =>
      obtain heq | hmem := List.mem_cons.mp hmem
      · cases heq
      · exact ih hmem
  | number hdigits hne hnext h ih =>
      obtain heq | hmem := List.mem_cons.mp hmem
      · cases heq
      · exact ih hmem
  | line hline hnext h ih =>
      obtain heq | hmem := List.mem_cons.mp hmem
      · cases heq
        exact hline
      · exact ih hmem

/-! ### The last token -/

theorem Written.ne_nil {t : Token} {ts : List Token} {w : List UInt8} (h : Written (t :: ts) w) :
  w ≠ []
  := by
  obtain ⟨b, v, rfl, -⟩ := h.head
  exact List.cons_ne_nil b v

theorem head?_append_congr {u v v' : List UInt8} (h : v'.head? = v.head?) :
  (u ++ v').head? = (u ++ v).head?
  := by
  cases u with
  | nil => exact h
  | cons b u => rfl

/-- The last token may be replaced by one that starts in the same way. -/
theorem Written.replace_last {ts : List Token} {t : Token} {w : List UInt8}
    (h : Written (ts ++ [t]) w) :
  ∃ u v, w = u ++ v ∧ Written [t] v
    ∧ ∀ t' v', v'.head? = v.head? → Written [t'] v' → Written (ts ++ [t']) (u ++ v')
  := by
  induction ts generalizing w with
  | nil => exact ⟨[], w, rfl, h, fun _ _ _ h' => h'⟩
  | cons s ts ih =>
      cases h with
      | @blank b _ w hb h =>
          obtain ⟨u, v, rfl, hlast, hreplace⟩ := ih h
          exact ⟨b :: u, v, rfl, hlast, fun t' v' hv h' => .blank hb (hreplace t' v' hv h')⟩
      | @number minus digits _ w hdigits hne hnext h =>
          obtain ⟨u, v, rfl, hlast, hreplace⟩ := ih h
          refine ⟨spelling minus digits ++ u, v, (List.append_assoc _ _ _).symm, hlast, ?_⟩
          intro t' v' hv h'
          rw [List.append_assoc]
          apply Written.number hdigits hne _ (hreplace t' v' hv h')
          rwa [head?_append_congr hv]
      | @line text _ w hline hnext h =>
          obtain ⟨u, v, rfl, hlast, hreplace⟩ := ih h
          refine ⟨text ++ u, v, (List.append_assoc _ _ _).symm, hlast, ?_⟩
          intro t' v' hv h'
          rw [List.append_assoc]
          apply Written.line hline _ (hreplace t' v' hv h')
          rwa [head?_append_congr hv]

/-- Digits that are written behind a token become part of it. -/
def Token.extend (ds : List UInt8) : Token → Token
  | .blank b => .blank b
  | .number minus digits => .number minus (digits ++ ds)
  | .line text => .line (text ++ ds)

variable {ds : List UInt8}

theorem Header.extend {text : List UInt8} (h : Header text)
    (hlast : ∀ b ∈ text.getLast?, isspace b = false) (hds : ∀ d ∈ ds, isdigit d = true) :
  Header (text ++ ds)
  := by
  obtain ⟨hblanks, hs₁, hvars, hvars_ne, hs₂, hs₂_ne, hclauses, hclauses_ne, hs₃⟩ := h
  rename_i blanks s₁ vars s₂ clauses s₃
  obtain rfl : s₃ = [] := by
    by_contra hne
    have hmem := List.getLast_mem hne
    have hspace := hlast (s₃.getLast hne) (by
      rw [← List.cons_append, ← List.append_assoc, ← List.append_assoc, ← List.append_assoc,
        ← List.append_assoc, ← List.append_assoc, List.getLast?_append_of_ne_nil _ hne]
      exact List.getLast?_eq_some_getLast hne)
    rw [(hs₃ _ hmem).1] at hspace
    cases hspace
  have hdigits : ∀ b ∈ clauses ++ ds, isdigit b = true := by
    intro b hb
    obtain hb | hb := List.mem_append.mp hb
    · exact hclauses b hb
    · exact hds b hb
  have hnil : ∀ b ∈ ([] : List UInt8), isspace b = true ∧ b ≠ '\n'.toUInt8 := by
    simp
  have hheader := Header.mk hblanks hs₁ hvars hvars_ne hs₂ hs₂_ne hdigits (by simp [hclauses_ne])
    hnil
  simpa using hheader

theorem Comment.extend {text : List UInt8} (h : Comment text) (hds : ∀ d ∈ ds, isdigit d = true) :
  Comment (text ++ ds)
  := by
  obtain ⟨t, rfl, ht⟩ := h
  refine ⟨t ++ ds, rfl, ?_⟩
  intro b hb
  obtain hb | hb := List.mem_append.mp hb
  · exact ht b hb
  · rintro rfl
    exact absurd (hds _ hb) (by decide)

/-- A text that does not end in white space may be continued by digits. -/
theorem Written.extend {ts : List Token} {t : Token} {w : List UInt8} (h : Written (ts ++ [t]) w)
    (hlast : ∀ b ∈ w.getLast?, isspace b = false) (hds : ∀ d ∈ ds, isdigit d = true) :
  Written (ts ++ [t.extend ds]) (w ++ ds) ∧ (∀ b, t ≠ .blank b)
    ∧ ∀ text, t = .line text → ∀ b ∈ text.getLast?, isspace b = false
  := by
  obtain ⟨u, v, rfl, hv, hreplace⟩ := h.replace_last
  have hlast' : ∀ b ∈ v.getLast?, isspace b = false := by
    rwa [List.getLast?_append_of_ne_nil _ hv.ne_nil] at hlast
  rw [List.append_assoc]
  cases hv with
  | @blank b _ w hb h' =>
      cases h'
      rw [hlast' b rfl] at hb
      cases hb
  | @number minus digits _ w hdigits hne hnext h' =>
      cases h'
      refine ⟨?_, nofun, nofun⟩
      rw [List.append_nil] at hreplace ⊢
      have hspelling : spelling minus digits ++ ds = spelling minus (digits ++ ds) := by
        cases minus <;> rfl
      obtain ⟨b, s, hs, -⟩ := spelling_eq_cons minus hdigits hne
      apply hreplace
      · rw [hs]
        rfl
      · rw [hspelling, ← List.append_nil (spelling minus (digits ++ ds))]
        apply Written.number _ (by simp [hne]) (by simp) .nil
        intro d hd
        obtain hd | hd := List.mem_append.mp hd
        · exact hdigits d hd
        · exact hds d hd
  | @line text _ w hline hnext h' =>
      cases h'
      rw [List.append_nil] at hreplace hlast' ⊢
      refine ⟨?_, nofun, fun _ heq => Token.line.inj heq ▸ hlast'⟩
      have hextend : Comment (text ++ ds) ∨ Header (text ++ ds) := by
        obtain hline | hline := hline
        · exact Or.inl (hline.extend hds)
        · exact Or.inr (hline.extend hlast' hds)
      obtain ⟨b, s, rfl, -⟩ := line_eq_cons hline
      apply hreplace
      · rfl
      · rw [← List.append_nil (b :: s ++ ds)]
        exact Written.line hextend (by simp) .nil

/-! ### Clauses -/

/-- The numbers among the tokens. -/
def numbers : List Token → List Int
  | [] => []
  | .number minus digits :: ts => value minus digits :: numbers ts
  | _ :: ts => numbers ts

theorem numbers_append (ts ts' : List Token) :
  numbers (ts ++ ts') = numbers ts ++ numbers ts'
  := by
  induction ts with
  | nil => rfl
  | cons t ts ih =>
      cases t with
      | blank b => exact ih
      | number minus digits => exact congrArg (value minus digits :: ·) ih
      | line text => exact ih

variable {w w' w'' : List UInt8} {ns ns' : List Int}

/-- A text that goes on with `w'` may start with `w`, and has the numbers `ns` in front then. -/
def Extends (w : List UInt8) (ns : List Int) (w' : List UInt8) : Prop :=
  ∀ ts, Written ts w' → ∃ ts', Written ts' w ∧ numbers ts' = ns ++ numbers ts

theorem Extends.refl (w : List UInt8) :
  Extends w [] w
  := fun ts h => ⟨ts, h, rfl⟩

theorem Extends.trans (h : Extends w ns w') (h' : Extends w' ns' w'') :
  Extends w (ns ++ ns') w''
  := by
  intro ts hts
  obtain ⟨ts', hts', hnumbers'⟩ := h' ts hts
  obtain ⟨ts'', hts'', hnumbers⟩ := h ts' hts'
  refine ⟨ts'', hts'', ?_⟩
  rw [hnumbers, hnumbers', List.append_assoc]

theorem Extends.written (h : Extends w ns []) :
  ∃ ts, Written ts w ∧ numbers ts = ns
  := by
  obtain ⟨ts, hts, hnumbers⟩ := h [] .nil
  refine ⟨ts, hts, ?_⟩
  rw [hnumbers, numbers, List.append_nil]

theorem extends_blanks {s : List UInt8} (hs : ∀ b ∈ s, isspace b = true) (w : List UInt8) :
  Extends (s ++ w) [] w
  := by
  intro ts hts
  induction s with
  | nil => exact ⟨ts, hts, rfl⟩
  | cons b s ih =>
      obtain ⟨ts', hts', hnumbers⟩ := ih (fun d hd => hs d (List.mem_cons_of_mem b hd))
      exact ⟨.blank b :: ts', .blank (hs b List.mem_cons_self) hts', hnumbers⟩

theorem extends_number (minus : Bool) {digits : List UInt8}
    (hdigits : ∀ d ∈ digits, isdigit d = true) (hne : digits ≠ [])
    (hnext : ∀ b ∈ w.head?, isdigit b = false) :
  Extends (spelling minus digits ++ w) [value minus digits] w
  := fun ts hts => ⟨.number minus digits :: ts, .number hdigits hne hnext hts, rfl⟩

theorem extends_line {text : List UInt8} (hline : Comment text ∨ Header text)
    (hnext : ∀ b ∈ w.head?, b = '\n'.toUInt8) :
  Extends (text ++ w) [] w
  := fun ts hts => ⟨.line text :: ts, .line hline hnext hts, rfl⟩

/-- A line with its line end. -/
theorem extends_line_break {text : List UInt8} (hline : Comment text ∨ Header text)
    (w : List UInt8) :
  Extends (text ++ '\n'.toUInt8 :: w) [] w
  := by
  have hbreak : Extends (['\n'.toUInt8] ++ w) [] w :=
    extends_blanks (List.forall_mem_singleton.mpr rfl) w
  exact Extends.trans (extends_line hline (head?_newline w)) hbreak

/-- A literal in front of the first clause. -/
def consLit (n : Int) : List (List Int) → List (List Int)
  | [] => [[n]]
  | c :: cs => (n :: c) :: cs

/-- The clauses that are left, from the inside of a clause or from between two clauses.  A clause
that is not ended by zero is ended by the end of the numbers. -/
def clausesFrom : Bool → List Int → List (List Int)
  | false, [] => []
  | true, [] => [[]]
  | _, n :: ns => if n = 0 then [] :: clausesFrom false ns else consLit n (clausesFrom true ns)

/-- The clauses that numbers stand for. -/
def clausesOf (ns : List Int) : List (List Int) :=
  clausesFrom false ns

theorem clausesFrom_true_ne_nil (ns : List Int) :
  clausesFrom true ns ≠ []
  := by
  cases ns with
  | nil => exact List.cons_ne_nil _ _
  | cons n ns =>
      rw [clausesFrom]
      split
      · exact List.cons_ne_nil _ _
      · cases clausesFrom true ns with
        | nil => exact List.cons_ne_nil _ _
        | cons c cs => exact List.cons_ne_nil _ _

/-- There are lines only between two clauses, where `ends` tells the numbers that end a clause. -/
def LinesBetween (ends : Int → Bool) : Bool → List Token → Prop
  | _, [] => True
  | inClause, .blank _ :: ts => LinesBetween ends inClause ts
  | _, .number minus digits :: ts => LinesBetween ends (!ends (value minus digits)) ts
  | inClause, .line _ :: ts => inClause = false ∧ LinesBetween ends inClause ts

theorem linesBetween_congr {ends ends' : Int → Bool} {ts : List Token}
    (h : ∀ n ∈ numbers ts, ends n = ends' n) (inClause : Bool) :
  LinesBetween ends inClause ts ↔ LinesBetween ends' inClause ts
  := by
  induction ts generalizing inClause with
  | nil => exact Iff.rfl
  | cons t ts ih =>
      cases t with
      | blank b => exact ih h inClause
      | number minus digits =>
          rw [LinesBetween, LinesBetween, h _ List.mem_cons_self]
          exact ih (fun n hn => h n (List.mem_cons_of_mem _ hn)) _
      | line text => exact and_congr_right (fun _ => ih h inClause)

/-- The last token may be continued. -/
theorem linesBetween_extend (ends : Int → Bool) (inClause : Bool) (ts : List Token) (t : Token)
    (ds : List UInt8) :
  LinesBetween ends inClause (ts ++ [t.extend ds]) ↔ LinesBetween ends inClause (ts ++ [t])
  := by
  induction ts generalizing inClause with
  | nil => cases t <;> exact Iff.rfl
  | cons s ts ih =>
      cases s with
      | blank b => exact ih inClause
      | number minus digits => exact ih _
      | line text => exact and_congr_right (fun _ => ih inClause)

end Dimacs
