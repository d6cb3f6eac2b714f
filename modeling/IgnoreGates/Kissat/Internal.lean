import IgnoreGates.Cadical.Search
import IgnoreGates.Kissat.Eliminate

/-!
# From a formula to the reported gates

The literals of the formula are imported as internal ones, and its clauses are simplified by
the units found so far when they are added.  The search enters dense mode at once, where the
unassigned binary clauses and the large clauses that are not satisfied are connected, visits
all variables and exits.
-/

namespace Kissat

open Logic

/-- An external literal, a nonzero number. -/
abbrev ExternalLit := Cadical.Lit

/-- The solver while the formula is added: the external variable of each internal one
(`export`), the root-level values, the binary clauses, the large clauses in the arena, and
whether the empty clause has been found. -/
structure Loader where
  exports : List Nat
  values : Nat → Option Bool
  binaries : List (Lit × Lit)
  arena : List (List Lit)
  inconsistent : Bool

/-- The clause that is being added: its literals so far, `clause_satisfied` and
`clause_trivial`. -/
structure Adding where
  clause : List Lit
  satisfied : Bool
  trivial : Bool

/-- The clause is satisfied, or dropped. -/
def Adding.Holds (a : Adding) (τ : Assignment Nat) : Prop :=
  a.satisfied = true ∨ a.trivial = true ∨ Clause.Sat τ a.clause

/-- The clause has no duplicate and complementary literals. -/
structure Adding.Wf (a : Adding) : Prop where
  nodup : a.clause.Nodup
  not_taut : ∀ lit ∈ a.clause, NOT lit ∉ a.clause

/-- `kissat_search_propagate` at the root level: the values behind it, and whether there is a
conflict. -/
abbrev Propagate := Loader → (Nat → Option Bool) × Bool

namespace Loader

/-- The solver at the beginning. -/
def init : Loader where
  exports := []
  values := fun _ => none
  binaries := []
  arena := []
  inconsistent := false

variable (l : Loader)

/-- `values[lit]` -/
def value (lit : Lit) : Option Bool :=
  (l.values (IDX lit)).map (· ^^ lit.sign)

/-- The internal literal of an external one, on the list of imported variables: a new external
variable becomes the next internal one, and without `tumble` the smaller external variables are
imported before it.  `kissat_import_literal` finds the same literal on the stacks `import` and
`export`. -/
def internalLiteral (tumble : Bool) (elit : ExternalLit) : Lit × Loader :=
  let eidx := elit.vidx
  let exports :=
    if eidx ∈ l.exports then l.exports
    else if tumble then l.exports ++ [eidx]
    else l.exports ++ List.range' (l.exports.length + 1) (eidx - l.exports.length)
  (CnfTools.Lit.ofVar (exports.idxOf eidx) (elit.int < 0), { l with exports := exports })

/-- A literal is added to the clause: it may be there already, make the clause trivial, be
true or false, or be new. -/
def addLiteral (a : Adding) (ilit : Lit) : Adding :=
  if ilit ∈ a.clause then a
  else if NOT ilit ∈ a.clause then { a with trivial := true }
  else
    match l.value ilit with
    | some true => { a with satisfied := true }
    | some false => a
    | none => { a with clause := a.clause ++ [ilit] }

/-- `kissat_add` for the literals of a clause. -/
def addLiterals (tumble : Bool) : List ExternalLit → Loader → Adding → Loader × Adding
  | [], l, a => (l, a)
  | elit :: elits, l, a =>
      let (ilit, l) := l.internalLiteral tumble elit
      addLiterals tumble elits l (l.addLiteral a ilit)

/-- `kissat_add` for the zero behind a clause. -/
def addClause (propagate : Propagate) (a : Adding) : Loader :=
  if l.inconsistent ∨ a.satisfied ∨ a.trivial then l
  else
    match a.clause with
    | [] => { l with inconsistent := true }
    | [unit] =>
        let l := { l with values := Function.update l.values (IDX unit) (some (!unit.sign)) }
        let (values, conflict) := propagate l
        { l with values := values, inconsistent := conflict }
    | [a, b] => { l with binaries := l.binaries ++ [(a, b)] }
    | clause => { l with arena := l.arena ++ [clause] }

/-- The clauses of a formula are added one after the other. -/
def load (tumble : Bool) (propagate : Propagate) :
    List (List ExternalLit) → Loader → Loader
  | [], l => l
  | elits :: F, l =>
      let (l, a) := addLiterals tumble elits l ⟨[], false, false⟩
      load tumble propagate F (l.addClause propagate a)

/-- Some literal of a large clause is true. -/
def satisfied (ref : Nat) : Bool :=
  (l.arena.getD ref []).any (fun lit => l.value lit = some true)

/-- The watches in dense mode: the binary clauses without assigned literals, and the large
clauses that are not satisfied. -/
def denseWatches (lit : Lit) : List Watch :=
  l.binaries.filterMap (fun c =>
    if l.value c.1 ≠ none ∨ l.value c.2 ≠ none then none
    else if c.1 = lit then some (.binary c.2)
    else if c.2 = lit then some (.binary c.1)
    else none)
  ++ ((List.range l.arena.length).filter
    (fun ref => !l.satisfied ref && decide (lit ∈ l.arena.getD ref []))).map .large

/-- `kissat_enter_dense_mode` and `kissat_connect_irredundant_large_clauses`. -/
def enterDenseMode (options : Options) (terminated : Nat → Bool) : Solver where
  options := options
  terminated := terminated
  arena := fun ref => l.arena.getD ref []
  watches := l.denseWatches
  values := l.values
  flags := { garbage := l.satisfied, resolveGate := false }
  marks := fun _ => false
  gates := fun _ => []
  printed := []

/-- The external literal of an internal one, which `kissat_export_literal` finds on the stack
`export`. -/
def externalLiteral (lit : Lit) : Int :=
  let elit : Int := l.exports.getD (IDX lit) 0
  if lit.sign then -elit else elit

end Loader

/-- What a run depends on beside the formula: the options, when it is terminated, unit
propagation and kitten. -/
structure Config where
  tumble : Bool
  options : Options
  terminated : Nat → Bool
  stop : Nat → Bool
  propagate : Propagate
  kitten : Kitten

/-- A gate as it is printed: the variable and the clauses, in external literals. -/
structure Printed where
  var : Nat
  clauses : List (List Int)
  deriving DecidableEq

/-- The gate is printed in external literals. -/
def Loader.printGate (l : Loader) (g : Report) : Printed where
  var := l.exports.getD g.idx 0
  clauses := g.clauses.map (·.map l.externalLiteral)

/-- What is printed: the lines with a variable and a type, and the gates below them. -/
structure Output where
  lines : List (Nat × GateType)
  gates : List Printed
  deriving DecidableEq

namespace Config

variable (cfg : Config)

/-- The solver when the formula has been added. -/
def loaded (F : List (List ExternalLit)) : Loader :=
  Loader.init.load cfg.tumble cfg.propagate F

/-- `kissat_search`, which enters dense mode, visits all variables and exits. -/
def kissatSearch (l : Loader) : Option Run :=
  let r : Run := ⟨l.enterDenseMode cfg.options cfg.terminated, []⟩
  if l.inconsistent then some r
  else Run.eliminateVariables cfg.kitten cfg.stop (List.range l.exports.length) r

/-- What is printed for a formula. -/
def output (F : List (List ExternalLit)) : Option Output := do
  let l := cfg.loaded F
  let r ← cfg.kissatSearch l
  some {
    lines := r.solver.printed.map (fun p => (l.exports.getD p.1 0, p.2))
    gates := r.reports.map l.printGate }

end Config

/-! ### Imported literals -/

/-- The assignment of the internal variables that an assignment of the external ones gives. -/
def internal (exports : List Nat) (σ : Assignment Nat) : Assignment Nat :=
  fun idx => (exports[idx]?).elim false σ

/-- The internal literal stands for the external one. -/
def Imported (exports : List Nat) (ilit : Lit) (elit : ExternalLit) : Prop :=
  exports[IDX ilit]? = some elit.vidx ∧ ilit.sign = decide (elit.int < 0)

/-- An imported literal has the value of the external one. -/
theorem Imported.value {exports : List Nat} {ilit : Lit} {elit : ExternalLit}
    (h : Imported exports ilit elit) (σ : Assignment Nat) :
  (internal exports σ).value ilit = σ.value elit
  := by
  obtain ⟨hget, hsign⟩ := h
  change (internal exports σ (IDX ilit) ^^ ilit.sign) = (σ elit.vidx ^^ decide (elit.int < 0))
  rw [hsign, internal, hget]
  rfl

/-- Later imports do not change earlier ones. -/
theorem Imported.mono {exports exports' : List Nat} {ilit : Lit} {elit : ExternalLit}
    (h : Imported exports ilit elit) (hpre : exports <+: exports') :
  Imported exports' ilit elit
  := by
  obtain ⟨rest, rfl⟩ := hpre
  refine ⟨?_, h.2⟩
  rw [List.getElem?_append_left (List.getElem?_eq_some_iff.mp h.1).1]
  exact h.1

/-- The external variables are imported once each, and without `tumble` in their order. -/
structure Exports (tumble : Bool) (exports : List Nat) : Prop where
  nodup : exports.Nodup
  ordered : tumble = false → exports = List.range' 1 exports.length

namespace Loader

/-- The literal found for an external one is imported, and earlier imports stay. -/
theorem internalLiteral_spec {tumble : Bool} {l l' : Loader} {ilit : Lit} {elit : ExternalLit}
    (hl : Exports tumble l.exports)
    (h : l.internalLiteral tumble elit = (ilit, l')) :
  Exports tumble l'.exports ∧ l.exports <+: l'.exports ∧ Imported l'.exports ilit elit
    ∧ l' = { l with exports := l'.exports }
  := by
  have hpos : 1 ≤ elit.vidx := Int.natAbs_pos.mpr elit.ne_zero
  rw [internalLiteral] at h
  have hspec : ∀ exports, (if elit.vidx ∈ l.exports then l.exports
      else if tumble then l.exports ++ [elit.vidx]
      else l.exports ++ List.range' (l.exports.length + 1) (elit.vidx - l.exports.length))
        = exports →
      Exports tumble exports ∧ l.exports <+: exports ∧ elit.vidx ∈ exports := by
    rintro exports rfl
    split
    · next hmem => exact ⟨hl, List.prefix_rfl, hmem⟩
    · next hmem =>
        split
        · next htumble =>
            refine ⟨⟨?_, fun h => absurd (htumble.symm.trans h) (by decide)⟩,
              List.prefix_append _ _, by simp⟩
            rw [List.nodup_append]
            refine ⟨hl.nodup, List.nodup_singleton _, ?_⟩
            rintro a ha b hb rfl
            rw [List.mem_singleton.mp hb] at ha
            exact hmem ha
        · next htumble =>
            have hordered := hl.ordered (by simpa using htumble)
            have hlarge : l.exports.length < elit.vidx := by
              rw [hordered, List.mem_range'_1] at hmem
              omega
            have hrange : l.exports ++ List.range' (l.exports.length + 1)
                (elit.vidx - l.exports.length) = List.range' 1 elit.vidx := by
              rw [hordered, List.length_range', Nat.add_comm _ 1, List.range'_append_1]
              congr 1
              omega
            refine ⟨⟨?_, ?_⟩, List.prefix_append _ _, ?_⟩
            · rw [hrange]
              exact List.nodup_range'
            · intro _
              rw [hrange, List.length_range']
            · rw [hrange, List.mem_range'_1]
              omega
  generalize hexports : (if elit.vidx ∈ l.exports then l.exports
      else if tumble then l.exports ++ [elit.vidx]
      else l.exports ++ List.range' (l.exports.length + 1) (elit.vidx - l.exports.length))
        = exports at h
  obtain ⟨hwf, hpre, hmem⟩ := hspec exports hexports
  cases h
  refine ⟨hwf, hpre, ⟨?_, ?_⟩, rfl⟩
  · change exports[(CnfTools.Lit.ofVar (exports.idxOf elit.vidx) _).var]? = _
    rw [CnfTools.Lit.ofVar_var]
    exact List.getElem?_idxOf hmem
  · exact CnfTools.Lit.ofVar_sign _ _

/-! ### Added clauses -/

/-- The assignment extends the values. -/
def Extends (l : Loader) (τ : Assignment Nat) : Prop :=
  ∀ idx b, l.values idx = some b → τ idx = b

/-- Literals that have a value have it in each assignment that extends the values. -/
theorem Extends.value_eq {l : Loader} {τ : Assignment Nat} (h : l.Extends τ) {lit : Lit}
    {b : Bool} (hlit : l.value lit = some b) :
  τ.value lit = b
  := by
  rw [value, Option.map_eq_some_iff] at hlit
  obtain ⟨a, ha, hab⟩ := hlit
  have hτ : τ (Literal.var lit) = a := h _ a ha
  rw [← hab, Assignment.value, hτ]
  rfl

/-- A clause that holds keeps holding when a literal is added. -/
theorem addLiteral_mono {l : Loader} {a : Adding} {ilit : Lit} {τ : Assignment Nat}
    (h : a.Holds τ) :
  (l.addLiteral a ilit).Holds τ
  := by
  rw [addLiteral]
  split
  · exact h
  split
  · exact Or.inr (Or.inl rfl)
  split
  · exact Or.inl rfl
  · exact h
  · obtain h | h | ⟨k, hk, hval⟩ := h
    · exact Or.inl h
    · exact Or.inr (Or.inl h)
    · exact Or.inr (Or.inr ⟨k, List.mem_append_left _ hk, hval⟩)

/-- A clause with a true literal holds. -/
theorem addLiteral_true {l : Loader} {a : Adding} {ilit : Lit} {τ : Assignment Nat}
    (hτ : l.Extends τ) (h : τ.value ilit = true) :
  (l.addLiteral a ilit).Holds τ
  := by
  rw [addLiteral]
  split
  · next hmem => exact Or.inr (Or.inr ⟨ilit, hmem, h⟩)
  split
  · exact Or.inr (Or.inl rfl)
  split
  · exact Or.inl rfl
  · next hfalse =>
      rw [hτ.value_eq hfalse] at h
      cases h
  · exact Or.inr (Or.inr ⟨ilit, List.mem_append_right _ (List.mem_singleton_self _), h⟩)

/-- Adding a literal keeps the form of the clause that is read. -/
theorem addLiteral_wf {l : Loader} {a : Adding} {ilit : Lit} (h : a.Wf) :
  (l.addLiteral a ilit).Wf
  := by
  rw [addLiteral]
  split
  · exact h
  split
  · exact ⟨h.nodup, h.not_taut⟩
  split
  · exact ⟨h.nodup, h.not_taut⟩
  · exact h
  · next hmem hnot _ _ =>
      constructor
      · rw [List.nodup_append]
        refine ⟨h.nodup, List.nodup_singleton _, ?_⟩
        rintro k hk m hm rfl
        rw [List.mem_singleton.mp hm] at hk
        exact hmem hk
      · intro lit hlit
        rw [List.mem_append, List.mem_singleton] at hlit ⊢
        rintro (hneg | hneg)
        · obtain hlit | rfl := hlit
          · exact h.not_taut lit hlit hneg
          · exact hnot hneg
        · obtain hlit | rfl := hlit
          · rw [← NOT_NOT lit, hneg] at hlit
            exact hnot hlit
          · exact NOT_ne _ hneg

/-- A clause that an assignment satisfies is added as one that it satisfies, unless it is
dropped. -/
theorem addLiterals_spec {tumble : Bool} {elits : List ExternalLit} {l l' : Loader}
    {a a' : Adding} (hl : Exports tumble l.exports) (ha : a.Wf)
    (h : addLiterals tumble elits l a = (l', a')) :
  Exports tumble l'.exports ∧ l.exports <+: l'.exports ∧ l' = { l with exports := l'.exports }
    ∧ a'.Wf ∧ ∀ exports σ, l'.exports <+: exports → l.Extends (internal exports σ) →
      a.Holds (internal exports σ) ∨ Clause.Sat σ elits → a'.Holds (internal exports σ)
  := by
  induction elits generalizing l a with
  | nil =>
      cases h
      refine ⟨hl, List.prefix_rfl, rfl, ha, ?_⟩
      rintro exports σ - - (h | ⟨elit, helit, -⟩)
      · exact h
      · cases helit
  | cons elit elits ih =>
      rw [addLiterals] at h
      generalize himport : l.internalLiteral tumble elit = p at h
      obtain ⟨ilit, l₁⟩ := p
      obtain ⟨hl₁, hpre₁, himported, heq₁⟩ := internalLiteral_spec hl himport
      obtain ⟨hl', hpre', heq', ha', hholds⟩ := ih hl₁ (addLiteral_wf ha) h
      have hvalues : l₁.values = l.values := by rw [heq₁]
      refine ⟨hl', hpre₁.trans hpre', ?_, ha', ?_⟩
      · rw [heq', heq₁]
      · intro exports σ hexports hσ hsat
        have hσ₁ : l₁.Extends (internal exports σ) := by
          intro idx b hb
          rw [hvalues] at hb
          exact hσ idx b hb
        apply hholds exports σ hexports hσ₁
        obtain h | ⟨k, hk, hval⟩ := hsat
        · exact Or.inl (addLiteral_mono h)
        · obtain rfl | hk := List.mem_cons.mp hk
          · left
            apply addLiteral_true hσ₁
            rw [(himported.mono (hpre'.trans hexports)).value]
            exact hval
          · exact Or.inr ⟨k, hk, hval⟩

/-! ### The clauses of a formula -/

/-- The assignment satisfies the clauses and extends the values. -/
structure Model (l : Loader) (τ : Assignment Nat) : Prop where
  binaries : ∀ c ∈ l.binaries, Clause.Sat τ [c.1, c.2]
  arena : ∀ c ∈ l.arena, Clause.Sat τ c
  extends_values : l.Extends τ

/-- The clauses have no duplicate and complementary literals. -/
structure Wf (tumble : Bool) (l : Loader) : Prop where
  exports : Exports tumble l.exports
  binaries : ∀ c ∈ l.binaries, IDX c.1 ≠ IDX c.2
  arena_nodup : ∀ c ∈ l.arena, c.Nodup
  arena_not_taut : ∀ c ∈ l.arena, ∀ lit ∈ c, NOT lit ∉ c

end Loader

/-- Unit propagation assigns only literals that hold in all models. -/
def Propagate.Sound (propagate : Propagate) : Prop :=
  ∀ l : Loader, ∀ τ, l.Model τ → ∀ idx b, (propagate l).1 idx = some b → τ idx = b

namespace Loader

theorem wf_init (tumble : Bool) :
  Wf tumble init
  := by
  refine ⟨⟨List.nodup_nil, fun _ => rfl⟩, ?_, ?_, ?_⟩ <;> intro c hc <;> cases hc

/-- Every assignment is a model of the empty formula. -/
theorem model_init (τ : Assignment Nat) :
  init.Model τ
  := by
  refine ⟨?_, ?_, ?_⟩
  · intro c hc
    cases hc
  · intro c hc
    cases hc
  · intro idx b hb
    cases hb

/-- A clause is added with what it propagates, and the models are those that satisfy it too. -/
theorem addClause_spec {tumble : Bool} {propagate : Propagate} (hpropagate : propagate.Sound)
    {l : Loader} {a : Adding} (hl : Wf tumble l) (ha : a.Wf) :
  Wf tumble (l.addClause propagate a) ∧ (l.addClause propagate a).exports = l.exports
    ∧ ∀ τ, l.Model τ → a.Holds τ → (l.addClause propagate a).Model τ
  := by
  rw [addClause]
  split
  · exact ⟨hl, rfl, fun τ hτ _ => hτ⟩
  · next hadd =>
      rw [not_or, not_or] at hadd
      obtain ⟨-, hsatisfied, htrivial⟩ := hadd
      have hsat : ∀ τ, a.Holds τ → Clause.Sat τ a.clause := by
        rintro τ (h | h | h)
        · exact absurd h hsatisfied
        · exact absurd h htrivial
        · exact h
      split
      · exact ⟨⟨hl.exports, hl.binaries, hl.arena_nodup, hl.arena_not_taut⟩, rfl,
          fun τ hτ _ => ⟨hτ.binaries, hτ.arena, hτ.extends_values⟩⟩
      · next unit hclause =>
          refine ⟨⟨hl.exports, hl.binaries, hl.arena_nodup, hl.arena_not_taut⟩, rfl, ?_⟩
          intro τ hτ hholds
          refine ⟨hτ.binaries, hτ.arena, ?_⟩
          obtain ⟨lit, hlit, hval⟩ := hsat τ hholds
          rw [hclause, List.mem_singleton] at hlit
          subst hlit
          apply hpropagate _ τ
          refine ⟨hτ.binaries, hτ.arena, ?_⟩
          intro idx b hb
          dsimp only at hb
          rw [Function.update_apply] at hb
          split at hb
          · next heq =>
              rw [Option.some.injEq] at hb
              change (τ (IDX lit) ^^ lit.sign) = true at hval
              rw [heq, ← hb]
              cases hsign : lit.sign <;> simp_all
          · exact hτ.extends_values idx b hb
      · next x y hclause =>
          have hvar : IDX x ≠ IDX y := by
            intro heq
            obtain rfl | rfl := eq_or_eq_NOT heq
            · have h := ha.nodup
              rw [hclause] at h
              simp at h
            · apply ha.not_taut y <;> rw [hclause] <;> simp
          refine ⟨⟨hl.exports, ?_, hl.arena_nodup, hl.arena_not_taut⟩, rfl, ?_⟩
          · intro c hc
            obtain hc | hc := List.mem_append.mp hc
            · exact hl.binaries c hc
            · rw [List.mem_singleton.mp hc]
              exact hvar
          · intro τ hτ hholds
            refine ⟨?_, hτ.arena, hτ.extends_values⟩
            intro c hc
            obtain hc | hc := List.mem_append.mp hc
            · exact hτ.binaries c hc
            · rw [List.mem_singleton.mp hc, ← hclause]
              exact hsat τ hholds
      · refine ⟨⟨hl.exports, hl.binaries, ?_, ?_⟩, rfl, ?_⟩
        · intro c hc
          obtain hc | hc := List.mem_append.mp hc
          · exact hl.arena_nodup c hc
          · rw [List.mem_singleton.mp hc]
            exact ha.nodup
        · intro c hc
          obtain hc | hc := List.mem_append.mp hc
          · exact hl.arena_not_taut c hc
          · rw [List.mem_singleton.mp hc]
            exact ha.not_taut
        · intro τ hτ hholds
          refine ⟨hτ.binaries, ?_, hτ.extends_values⟩
          intro c hc
          obtain hc | hc := List.mem_append.mp hc
          · exact hτ.arena c hc
          · rw [List.mem_singleton.mp hc]
            exact hsat τ hholds

/-- The models of a formula are models of the clauses that are added for it. -/
theorem load_spec {tumble : Bool} {propagate : Propagate} (hpropagate : propagate.Sound)
    {F : List (List ExternalLit)} {l : Loader} (hl : Wf tumble l) :
  Wf tumble (load tumble propagate F l) ∧ l.exports <+: (load tumble propagate F l).exports
    ∧ ∀ exports σ, (load tumble propagate F l).exports <+: exports →
      l.Model (internal exports σ) → Models σ {c | c ∈ F} →
        (load tumble propagate F l).Model (internal exports σ)
  := by
  induction F generalizing l with
  | nil => exact ⟨hl, List.prefix_rfl, fun exports σ _ h _ => h⟩
  | cons elits F ih =>
      rw [load]
      have hempty : Adding.Wf ⟨[], false, false⟩ := ⟨List.nodup_nil, fun lit h => by cases h⟩
      generalize hadd : addLiterals tumble elits l ⟨[], false, false⟩ = p
      obtain ⟨l₁, a⟩ := p
      obtain ⟨hexports, hpre, heq, ha, hholds⟩ := addLiterals_spec hl.exports hempty hadd
      have hl₁ : Wf tumble l₁ := by
        refine ⟨hexports, ?_, ?_, ?_⟩ <;> rw [heq]
        · exact hl.binaries
        · exact hl.arena_nodup
        · exact hl.arena_not_taut
      obtain ⟨hl₂, hexports₂, hmodel₂⟩ := addClause_spec hpropagate hl₁ ha
      obtain ⟨hl₃, hpre₃, hmodel₃⟩ := ih hl₂
      rw [hexports₂] at hpre₃
      refine ⟨hl₃, hpre.trans hpre₃, ?_⟩
      intro exports σ hfinal hσ hF
      apply hmodel₃ exports σ hfinal
      · apply hmodel₂
        · refine ⟨?_, ?_, ?_⟩
          · rw [heq]
            exact hσ.binaries
          · rw [heq]
            exact hσ.arena
          · intro idx b hb
            rw [heq] at hb
            exact hσ.extends_values idx b hb
        · exact hholds exports σ (hpre₃.trans hfinal) hσ.extends_values
            (Or.inr (hF elits List.mem_cons_self))
      · exact hF.mono (fun c hc => List.mem_cons_of_mem _ hc)

/-! ### Entering dense mode -/

/-- The watches of dense mode are those of the binary clauses and of the large clauses of the arena.
-/
theorem mem_denseWatches {l : Loader} {lit : Lit} {w : Watch} (h : w ∈ l.denseWatches lit) :
  (∃ c ∈ l.binaries, ∃ other, w = .binary other
      ∧ (c = (lit, other) ∨ c = (other, lit)))
    ∨ ∃ ref, w = .large ref ∧ l.arena.getD ref [] ∈ l.arena ∧ lit ∈ l.arena.getD ref []
  := by
  obtain h | h := List.mem_append.mp h
  · left
    obtain ⟨⟨x, y⟩, hc, hw⟩ := List.mem_filterMap.mp h
    split at hw
    · cases hw
    split at hw
    · next heq =>
        cases hw
        exact ⟨(x, y), hc, y, rfl, Or.inl (by rw [← heq])⟩
    split at hw
    · next heq =>
        cases hw
        exact ⟨(x, y), hc, x, rfl, Or.inr (by rw [← heq])⟩
    · cases hw
  · right
    obtain ⟨ref, href, rfl⟩ := List.mem_map.mp h
    obtain ⟨href, hlit⟩ := List.mem_filter.mp href
    rw [Bool.and_eq_true, decide_eq_true_iff] at hlit
    refine ⟨ref, rfl, ?_, hlit.2⟩
    rw [List.getD_eq_getElem _ _ (List.mem_range.mp href)]
    exact List.getElem_mem _

/-- The clauses of a watch in dense mode have been added. -/
theorem dense_clause {tumble : Bool} {l : Loader} (hl : Wf tumble l) {options : Options}
    {terminated : Nat → Bool} {lit : Lit} {w : Watch}
    (hw : w ∈ (l.enterDenseMode options terminated).watches lit) :
  lit ∈ (l.enterDenseMode options terminated).watchToClause lit w
    ∧ ((l.enterDenseMode options terminated).watchToClause lit w).Nodup
    ∧ (∀ k ∈ (l.enterDenseMode options terminated).watchToClause lit w,
      NOT k ∉ (l.enterDenseMode options terminated).watchToClause lit w)
    ∧ ∀ τ, l.Model τ → Clause.Sat τ ((l.enterDenseMode options terminated).watchToClause lit w)
  := by
  obtain ⟨c, hc, other, rfl, hcase⟩ | ⟨ref, rfl, hmem, hlit⟩ := mem_denseWatches hw
  · have hvar : IDX lit ≠ IDX other := by
      have h := hl.binaries c hc
      obtain rfl | rfl := hcase
      · exact h
      · exact h.symm
    refine ⟨List.mem_cons_self, ?_, ?_, ?_⟩
    · simp only [Solver.watchToClause, List.nodup_cons, List.mem_singleton, List.not_mem_nil,
        not_false_eq_true, List.nodup_nil, and_true]
      rintro rfl
      exact hvar rfl
    · simp only [Solver.watchToClause, List.mem_cons, List.not_mem_nil, or_false]
      rintro k (rfl | rfl) (h | h)
      · exact NOT_ne _ h
      · rw [← h, IDX_NOT] at hvar
        exact hvar rfl
      · rw [← h, IDX_NOT] at hvar
        exact hvar rfl
      · exact NOT_ne _ h
    · intro τ hτ
      obtain ⟨k, hk, hval⟩ := hτ.binaries c hc
      refine ⟨k, ?_, hval⟩
      simp only [Solver.watchToClause, List.mem_cons, List.not_mem_nil, or_false] at hk ⊢
      obtain rfl | rfl := hcase
      · exact hk
      · exact hk.symm
  · exact ⟨hlit, hl.arena_nodup _ hmem, hl.arena_not_taut _ hmem, fun τ hτ => hτ.arena _ hmem⟩

/-- The invariant of the run holds when dense mode is entered. -/
theorem enterDenseMode_inv {tumble : Bool} {l : Loader} (hl : Wf tumble l) (options : Options)
    (terminated : Nat → Bool) {M : Set (Assignment Nat)} (hM : ∀ τ ∈ M, l.Model τ) :
  Run.Inv M ⟨l.enterDenseMode options terminated, []⟩
  := by
  constructor
  · refine ⟨⟨?_, ?_, ?_⟩, fun _ => rfl, fun _ => rfl⟩
    · exact fun lit w hw => (dense_clause hl hw).1
    · exact fun lit w hw => (dense_clause hl hw).2.1
    · exact fun lit w hw => (dense_clause hl hw).2.2.1
  · intro τ hτ
    exact ⟨fun lit w hw => (dense_clause hl hw).2.2.2 τ (hM τ hτ), (hM τ hτ).extends_values⟩
  · intro g hg
    cases hg
  · rfl

end Loader

/-! ### The reported gates -/

/-- Some printed clause has a literal of the variable. -/
def Printed.Mentions (g : Printed) (v : Nat) : Prop :=
  ∃ c ∈ g.clauses, ∃ elit ∈ c, elit.natAbs = v

theorem natAbs_externalLiteral (l : Loader) (lit : Lit) :
  (l.externalLiteral lit).natAbs = l.exports.getD (IDX lit) 0
  := by
  rw [Loader.externalLiteral]
  split <;> simp

namespace Config

variable {cfg : Config} {clauses : cfg.kitten.State → Set (Nat × List Lit)}

/-- The invariant of the run that visits all variables. -/
theorem search_inv (hpropagate : cfg.propagate.Sound) (hkitten : cfg.kitten.Sound clauses)
    {F : List (List ExternalLit)} {r : Run}
    (h : cfg.kissatSearch (cfg.loaded F) = some r) :
  r.Inv {τ | ∃ σ, Models σ {c | c ∈ F} ∧ τ = internal (cfg.loaded F).exports σ}
    ∧ ∀ g ∈ r.reports, g.idx < (cfg.loaded F).exports.length
  := by
  obtain ⟨hl, -, hmodel⟩ := Loader.load_spec hpropagate (F := F) (Loader.wf_init cfg.tumble)
  have hstart := Loader.enterDenseMode_inv hl cfg.options cfg.terminated
    (M := {τ | ∃ σ, Models σ {c | c ∈ F} ∧ τ = internal (cfg.loaded F).exports σ}) (by
      rintro τ ⟨σ, hσ, rfl⟩
      apply hmodel _ σ List.prefix_rfl _ hσ
      exact Loader.model_init _)
  rw [kissatSearch] at h
  split at h
  · cases h
    exact ⟨hstart, fun g hg => by cases hg⟩
  · refine ⟨hstart.run hkitten h, ?_⟩
    intro g hg
    obtain hg | hg := Run.reports_visited h g hg
    · cases hg
    · exact List.mem_range.mp hg

/-- Reported gates that can be ordered so that no gate mentions the variable of a later one
determine their variables jointly: two models of the formula that agree on all other variables
are equal. -/
theorem reported_determined (hpropagate : cfg.propagate.Sound)
    (hkitten : cfg.kitten.Sound clauses) {F : List (List ExternalLit)} {out : Output}
    (h : cfg.output F = some out) :
  out.gates.map Printed.var = out.lines.map Prod.fst
    ∧ ∀ gs : List Printed, (∀ g ∈ gs, g ∈ out.gates) →
      gs.Pairwise (fun g h => ¬ g.Mentions h.var) →
        ∀ σ τ : Assignment Nat, Models σ {c | c ∈ F} → Models τ {c | c ∈ F} →
          (∀ v, v ∉ gs.map Printed.var → σ v = τ v) → σ = τ
  := by
  obtain ⟨r, hr, hout⟩ := Option.bind_eq_some_iff.mp h
  cases hout
  obtain ⟨hinv, hlt⟩ := search_inv hpropagate hkitten hr
  generalize hl : cfg.loaded F = l at hinv hlt
  have hnodup : l.exports.Nodup := by
    rw [← hl]
    exact (Loader.load_spec hpropagate (Loader.wf_init cfg.tumble)).1.exports.nodup
  constructor
  · rw [List.map_map, List.map_map]
    have hprinted := congrArg (List.map (fun idx => l.exports.getD idx 0)) hinv.printed
    rw [List.map_map, List.map_map] at hprinted
    exact hprinted
  · intro gs hgs hordered σ τ hσ hτ hagree
    -- the reports in internal variables
    obtain ⟨rs, hrs⟩ : gs ∈ Set.range (List.map
        (fun g : {g // g ∈ r.reports} => l.printGate g.val)) := by
      rw [Set.range_list_map]
      intro g hg
      obtain ⟨g', hg', rfl⟩ := List.mem_map.mp (hgs g hg)
      exact ⟨⟨g', hg'⟩, rfl⟩
    subst hrs
    rw [List.pairwise_map] at hordered
    have hequal : internal l.exports σ = internal l.exports τ := by
      apply eq_of_determined ?_ ?_ (?_ : Assignment.AgreeOff
        (outputs (rs.map (fun g => (g.val.idx, {c | c ∈ g.val.clauses})))) _ _)
      · rw [List.pairwise_map]
        apply hordered.imp
        rintro g g' hmentions c hc ⟨lit, hlit, hvar⟩
        apply hmentions
        refine ⟨_, List.mem_map_of_mem hc, _, List.mem_map_of_mem hlit, ?_⟩
        have hidx : IDX lit = g'.val.idx := hvar
        rw [natAbs_externalLiteral, hidx]
        rfl
      · rintro d hd
        obtain ⟨g, -, rfl⟩ := List.mem_map.mp hd
        exact hinv.determined g.val g.prop _ ⟨σ, hσ, rfl⟩ _ ⟨τ, hτ, rfl⟩
      · intro idx hidx
        rw [internal, internal]
        cases hget : l.exports[idx]? with
        | none => rfl
        | some v =>
            apply hagree v
            rw [List.map_map, List.mem_map]
            rintro ⟨g, hg, rfl⟩
            apply hidx
            have hv : l.exports[g.val.idx]? = some (l.exports.getD g.val.idx 0) := by
              rw [List.getD_eq_getElem _ _ (hlt _ g.prop)]
              exact List.getElem?_eq_getElem _
            have hsame : idx = g.val.idx :=
              (List.getElem?_inj (List.getElem?_eq_some_iff.mp hget).1 hnodup).mp
                (hget.trans hv.symm)
            rw [hsame]
            simp only [outputs, List.map_map, Set.mem_ofPred_eq, List.mem_map]
            exact ⟨g, hg, rfl⟩
    funext v
    by_cases hv : v ∈ rs.map (fun g => (l.printGate g.val).var)
    · obtain ⟨g, -, rfl⟩ := List.mem_map.mp hv
      have hidx := congrFun hequal g.val.idx
      have hget : l.exports[g.val.idx]? = some (l.printGate g.val).var := by
        change _ = some (l.exports.getD g.val.idx 0)
        rw [List.getD_eq_getElem _ _ (hlt _ g.prop)]
        exact List.getElem?_eq_getElem _
      rw [internal, internal, hget] at hidx
      exact hidx
    · apply hagree v
      rw [List.map_map]
      exact hv

end Config

/-! ### Two equivalent variables -/

namespace Exhaustive

/-- All extractors are used; no units occur that would have to be propagated. -/
def config : Config where
  tumble := true
  options := solver.options
  terminated := fun _ => false
  stop := fun _ => false
  propagate := fun l => (l.values, false)
  kitten := kitten

/-- `x ∨ ¬ y` and `¬ x ∨ y`. -/
def equivalent : List (List ExternalLit) :=
  [[Cadical.Lit.ofInt 1, Cadical.Lit.ofInt (-2)], [Cadical.Lit.ofInt (-1), Cadical.Lit.ofInt 2]]

theorem propagate_sound :
  config.propagate.Sound
  := fun _ _ hτ idx b hb => hτ.extends_values idx b hb

theorem output_equivalent :
  config.output equivalent = some {
    lines := [(1, .EQV), (2, .EQV)]
    gates := [⟨1, [[1, -2], [-1, 2]]⟩, ⟨2, [[2, -1], [-2, 1]]⟩] }
  := by decide +kernel

/-- Both variables of an equivalence are reported, and its models with both values agree on
all other variables. -/
theorem equivalent_not_determined :
  config.propagate.Sound ∧ config.kitten.Sound (fun k : State => {c | c ∈ k.clauses})
    ∧ ∃ out, config.output equivalent = some out ∧ ∃ σ τ : Assignment Nat,
      Models σ {c | c ∈ equivalent} ∧ Models τ {c | c ∈ equivalent}
        ∧ (∀ v, v ∉ out.lines.map Prod.fst → σ v = τ v)
        ∧ ∃ v ∈ out.lines.map Prod.fst, σ v ≠ τ v
  := by
  refine ⟨propagate_sound, sound, _, output_equivalent, fun v => v ∈ [1, 2], fun _ => false,
    ?_, ?_, ?_, 1, by decide, by decide⟩
  · intro c hc
    simp only [equivalent, Set.mem_ofPred_eq, List.mem_cons, List.not_mem_nil, or_false] at hc
    obtain rfl | rfl := hc
    · exact ⟨Cadical.Lit.ofInt 1, by simp, by decide⟩
    · exact ⟨Cadical.Lit.ofInt 2, by simp, by decide⟩
  · intro c hc
    simp only [equivalent, Set.mem_ofPred_eq, List.mem_cons, List.not_mem_nil, or_false] at hc
    obtain rfl | rfl := hc
    · exact ⟨Cadical.Lit.ofInt (-2), by simp, by decide⟩
    · exact ⟨Cadical.Lit.ofInt (-1), by simp, by decide⟩
  · intro v hv
    simpa using hv

/-- One of the two variables is determined by the other. -/
theorem equivalent_determined :
  ∃ out, config.output equivalent = some out ∧ ∃ g ∈ out.gates, g.var = 1
    ∧ ¬ ∃ σ τ : Assignment Nat, Models σ {c | c ∈ equivalent} ∧ Models τ {c | c ∈ equivalent}
      ∧ (∀ v, v ∉ [g].map Printed.var → σ v = τ v) ∧ σ ≠ τ
  := by
  refine ⟨_, output_equivalent, ⟨1, [[1, -2], [-1, 2]]⟩, by decide, rfl, ?_⟩
  rintro ⟨σ, τ, hσ, hτ, hagree, hne⟩
  apply hne
  apply (Config.reported_determined propagate_sound sound output_equivalent).2
    [⟨1, [[1, -2], [-1, 2]]⟩] (by decide) (List.pairwise_singleton _ _) σ τ hσ hτ hagree

end Exhaustive

end Kissat
