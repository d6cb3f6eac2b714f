import IgnoreGates.Logic.UnitPropagation
import IgnoreGates.Cadical.CheckerCalls

/-!
# Runs of the checker

A run is a sequence of calls that the checker accepts.  Every derived clause that it accepts
follows from the original clauses in front of it; a clause that follows by reverse unit
propagation from the clauses that have been added and not been deleted is accepted; and the
deletion of a clause is accepted unless it has not been added or has been deleted as often as it
has been added.
-/

namespace Cadical

open Logic

namespace Checker

variable {s : Checker} {c d l : List Lit} {σ : Assignment Nat}

/-! ### Calls -/

/-- A call of the observer. -/
inductive Event where
  | original (c : List Lit)
  | derived (c : List Lit)
  | delete (c : List Lit)
  deriving DecidableEq

/-- A clause with these literals is added. -/
def Event.adds (c : List Lit) : Event → Bool
  | .original d => d.toFinset = c.toFinset
  | .derived d => d.toFinset = c.toFinset
  | .delete _ => false

/-- A clause with these literals is deleted. -/
def Event.deletes (c : List Lit) : Event → Bool
  | .original _ => false
  | .derived _ => false
  | .delete d => d.toFinset = c.toFinset

def step (s : Checker) : Event → Except Fatal Checker
  | .original c => s.addOriginalClause c
  | .derived c => s.addDerivedClause c
  | .delete c => s.deleteClause c

/-- The clause is neither tautological nor satisfied on root level. -/
def Pending (s : Checker) (c : List Lit) : Prop :=
  (∀ k ∈ c, -k ∉ c) ∧ ∀ k ∈ c, k ∉ s.trail

theorem tautological_eq_none_iff_pending (s : Checker) (c : List Lit) :
  s.tautological c = none ↔ ¬ s.Pending c
  := by
  rw [tautological_eq_none_iff, Pending, not_and_or]
  push Not
  rfl

theorem Pending.congr (h : s.Pending c) (hsame : d.toFinset = c.toFinset) :
  s.Pending d
  := by
  have hmem (k : Lit) : k ∈ d ↔ k ∈ c := by
    rw [← List.mem_toFinset, hsame, List.mem_toFinset]
  refine ⟨?_, ?_⟩
  · intro k hk hneg
    exact h.1 k ((hmem k).mp hk) ((hmem (-k)).mp hneg)
  · intro k hk
    exact h.2 k ((hmem k).mp hk)

/-- What an accepted call does. -/
structure Called (s s' : Checker) (e : Event) : Prop where
  inv : s'.inconsistent = false → s'.Inv
  trail : s.trail <+: s'.trail
  count : s'.inconsistent = false → ∀ d, s'.Pending d →
    s'.count d + (if e.deletes d then 1 else 0) = s.count d + if e.adds d then 1 else 0
  holds : ∀ σ, s.Holds σ → (∀ c, e = .original c → Clause.Sat σ c) →
    s'.inconsistent = false ∧ s'.Holds σ
  entailed : ∀ c, e = .derived c → ∀ σ, s.Holds σ → Clause.Sat σ c

/-- The clause has been imported. -/
structure Imported (s s' : Checker) (c : List Lit) : Prop where
  inv : s'.Inv
  inconsistent : s'.inconsistent = s.inconsistent
  trail : s'.trail = s.trail
  count : ∀ d, s'.count d = s.count d
  holds : ∀ σ, s'.Holds σ ↔ s.Holds σ
  vidx_lt : ∀ k ∈ c, k.vidx < s'.sizeVars

theorem Inv.importClause (h : s.Inv) (c : List Lit) :
  s.Imported (s.importClause c) c
  := by
  obtain ⟨hle, hlt, heq⟩ := s.importClause_spec c
  rw [heq]
  exact ⟨h.set_sizeVars hle, rfl, rfl, fun _ => rfl,
    fun σ => ⟨fun hσ => ⟨hσ.clauses, hσ.trail⟩, fun hσ => ⟨hσ.clauses, hσ.trail⟩⟩, hlt⟩

/-- A clause that is tautological or satisfied is true. -/
theorem sat_of_not_pending (hσ : s.Holds σ) (h : ¬ s.Pending c) :
  Clause.Sat σ c
  := by
  rw [← tautological_eq_none_iff_pending, tautological_eq_none_iff] at h
  obtain ⟨k, hk, hneg⟩ | ⟨k, hk, htrail⟩ := h
  · cases hval : σ.value k with
    | true => exact ⟨k, hk, hval⟩
    | false =>
        refine ⟨-k, hneg, ?_⟩
        rw [show -k = Literal.neg k from rfl, Assignment.value_neg, hval]
        rfl
  · exact ⟨k, hk, hσ.trail k htrail⟩

/-- A call that ignores its clause. -/
theorem Imported.ignored {s' : Checker} (h : s.Imported s' c)
    (hinconsistent : s.inconsistent = false) (hc : ¬ s.Pending c) {e : Event}
    (he : e = .original c ∨ e = .derived c ∨ e = .delete c) :
  s.Called s' e
  where
    inv := fun _ => h.inv
    trail := by rw [h.trail]
    count := by
      intro _ d hd
      have hpending : s.Pending d := by
        rw [Pending, h.trail] at hd
        exact hd
      have hne : c.toFinset ≠ d.toFinset := fun hsame => hc (hpending.congr hsame)
      rw [h.count]
      obtain rfl | rfl | rfl := he <;> simp [Event.adds, Event.deletes, hne]
    holds := fun σ hσ _ => ⟨h.inconsistent.trans hinconsistent, (h.holds σ).mpr hσ⟩
    entailed := by
      intro d hd σ hσ
      obtain rfl : d = c := by
        obtain rfl | rfl | rfl := he
        · cases hd
        · exact (Event.derived.inj hd).symm
        · cases hd
      exact sat_of_not_pending hσ hc

/-- What a call that has added its simplified clause does. -/
theorem Imported.added {s₁ s' : Checker} (h : s.Imported s₁ c) (hl : l.toFinset = c.toFinset)
    (hadded : s₁.Added s' l) {e : Event} (he : e = .original c ∨ e = .derived c)
    (hentailed : ∀ σ, s.Holds σ → (∀ c, e = .original c → Clause.Sat σ c) → Clause.Sat σ c)
    (hderived : e = .derived c → ∀ σ, s.Holds σ → Clause.Sat σ c) :
  s.Called s' e
  where
    inv := hadded.inv
    trail := h.trail ▸ hadded.trail
    count := by
      intro hinconsistent d hd
      rw [hadded.count hinconsistent d hd.2, h.count, hl]
      obtain rfl | rfl := he <;> simp [Event.adds, Event.deletes]
    holds := by
      intro σ hσ hall
      apply hadded.holds σ ((h.holds σ).mpr hσ)
      obtain ⟨k, hk, hval⟩ := hentailed σ hσ hall
      refine ⟨k, ?_, hval⟩
      rwa [← List.mem_toFinset, hl, List.mem_toFinset]
    entailed := by
      intro d hd
      obtain rfl | rfl := he
      · cases hd
      · obtain rfl := Event.derived.inj hd
        exact hderived rfl

/-- An original clause is added, or it is not needed. -/
theorem Inv.addOriginalClause (h : s.Inv) (hinconsistent : s.inconsistent = false)
    (c : List Lit) :
  ∃ s', s.addOriginalClause c = .ok s' ∧ s.Called s' (.original c)
  := by
  have himported := h.importClause c
  rw [Checker.addOriginalClause, if_neg (by rw [hinconsistent]; decide)]
  simp only
  generalize s.importClause c = s₁ at himported
  have hpending : s₁.Pending c ↔ s.Pending c := by rw [Pending, Pending, himported.trail]
  cases htautological : s₁.tautological c with
  | none =>
      rw [tautological_eq_none_iff_pending, hpending] at htautological
      exact ⟨s₁, rfl, himported.ignored hinconsistent htautological (Or.inl rfl)⟩
  | some l =>
      have hl := tautological_eq_some htautological
      obtain ⟨s', hs', hadded⟩ := himported.inv.addClause
        (himported.inconsistent.trans hinconsistent) hl
        (fun k hk => himported.vidx_lt k ((hl.mem_iff k).mp hk))
      refine ⟨s', ?_, himported.added hl.same hadded (Or.inl rfl)
        (fun σ _ hall => hall c rfl) nofun⟩
      simp only [hs']

theorem Open.congr {T : Lit → Prop} (h : s.Open l T) (hl : l.toFinset = c.toFinset) :
  s.Open c T
  := by
  refine ⟨h.consistent, h.trail, ?_, h.clause⟩
  intro k hk
  apply h.assumed k
  rwa [← List.mem_toFinset, hl, List.mem_toFinset]

/-- The clause is added, or it is not accepted and propagation has left clauses open. -/
theorem Inv.addDerivedClause (h : s.Inv) (hinconsistent : s.inconsistent = false)
    (c : List Lit) :
  (∃ s', s.addDerivedClause c = .ok s' ∧ s.Called s' (.derived c))
    ∨ s.addDerivedClause c = .error (.failedToCheck c) ∧ s.Pending c ∧ ∃ T, s.Open c T
  := by
  have himported := h.importClause c
  have hstored : ∀ d, (s.importClause c).Stored d ↔ s.Stored d := by
    intro d
    rw [(s.importClause_spec c).2.2]
    rfl
  have hlits : (s.importClause c).lits = s.lits := by
    rw [(s.importClause_spec c).2.2]
    rfl
  rw [Checker.addDerivedClause, if_neg (by rw [hinconsistent]; decide)]
  simp only
  generalize s.importClause c = s₁ at himported hstored hlits
  have hpending : s₁.Pending c ↔ s.Pending c := by rw [Pending, Pending, himported.trail]
  have hinconsistent₁ := himported.inconsistent.trans hinconsistent
  cases htautological : s₁.tautological c with
  | none =>
      rw [tautological_eq_none_iff_pending, hpending] at htautological
      exact Or.inl ⟨s₁, rfl, himported.ignored hinconsistent htautological (Or.inr (Or.inl rfl))⟩
  | some l =>
      have hl := tautological_eq_some htautological
      have hlt : ∀ k ∈ l, k.vidx < s₁.sizeVars :=
        fun k hk => himported.vidx_lt k ((hl.mem_iff k).mp hk)
      obtain ⟨res, s₂, hs₂, hchecked⟩ := himported.inv.check hinconsistent₁ hl hlt
      simp only [hs₂]
      cases res with
      | false =>
          right
          obtain ⟨T, hT⟩ := hchecked.complete rfl
          refine ⟨rfl, ?_, T, ?_⟩
          · rw [← hpending]
            by_contra hnot
            rw [(tautological_eq_none_iff_pending s₁ c).mpr hnot] at htautological
            cases htautological
          · apply Open.congr _ hl.same
            refine ⟨hT.consistent, himported.trail ▸ hT.trail, hT.assumed, ?_⟩
            intro d hd
            rw [← hlits]
            exact hT.clause d ((hstored d).mpr hd)
      | true =>
          left
          have hentailed : ∀ σ, s.Holds σ → Clause.Sat σ c := by
            intro σ hσ
            obtain ⟨k, hk, hval⟩ := hchecked.sound rfl σ ((himported.holds σ).mpr hσ)
            exact ⟨k, (hl.mem_iff k).mp hk, hval⟩
          have hl₂ : s₂.Simplified c l :=
            ⟨hl.sorted, hl.same, hl.neg_not_mem, hchecked.trail ▸ hl.not_mem_trail⟩
          obtain ⟨s', hs', hadded⟩ := hchecked.inv.addClause
            (hchecked.reorders.inconsistent.trans hinconsistent₁) hl₂
            (hchecked.reorders.sizeVars ▸ hlt)
          have hadded₁ : s₁.Added s' l := by
            refine ⟨hadded.inv, hchecked.trail ▸ hadded.trail, ?_,
              fun σ hσ => hadded.holds σ (hchecked.holds σ hσ)⟩
            intro hs'inc d hd
            rw [hadded.count hs'inc d hd, hchecked.reorders.count]
          refine ⟨s', ?_, himported.added hl.same hadded₁ (Or.inr rfl)
            (fun σ hσ _ => hentailed σ hσ) (fun _ => hentailed)⟩
          simp only [hs']

/-- What a call that has removed its clause does. -/
theorem Imported.deleted {s₁ s' : Checker} (h : s.Imported s₁ c)
    (hinconsistent : s.inconsistent = false) (hremoved : s₁.Removed s' c.toFinset) :
  s.Called s' (.delete c)
  where
    inv := fun _ => hremoved.inv
    trail := by rw [hremoved.trail, h.trail]
    count := by
      intro _ d hd
      have hd₁ := hd.2
      rw [hremoved.trail] at hd₁
      rw [← h.count, hremoved.count d hd₁]
      simp [Event.adds, Event.deletes]
    holds := by
      intro σ hσ _
      refine ⟨?_, hremoved.holds σ ((h.holds σ).mpr hσ)⟩
      rw [hremoved.inconsistent, h.inconsistent, hinconsistent]
    entailed := nofun

/-- A clause is deleted unless it ought to be stored and is not. -/
theorem Inv.deleteClause (h : s.Inv) (hinconsistent : s.inconsistent = false) (c : List Lit) :
  (∃ s', s.deleteClause c = .ok s' ∧ s.Called s' (.delete c) ∧ (s.Pending c → 0 < s.count c))
    ∨ (∃ e, s.deleteClause c = .error e) ∧ s.Pending c ∧ s.count c = 0
  := by
  have himported := h.importClause c
  rw [Checker.deleteClause, if_neg (by rw [hinconsistent]; decide)]
  simp only
  generalize s.importClause c = s₁ at himported
  have hpending : s₁.Pending c ↔ s.Pending c := by rw [Pending, Pending, himported.trail]
  cases htautological : s₁.tautological c with
  | none =>
      rw [tautological_eq_none_iff_pending, hpending] at htautological
      exact Or.inl ⟨s₁, rfl, himported.ignored hinconsistent htautological (Or.inr (Or.inr rfl)),
        fun hc => absurd hc htautological⟩
  | some l =>
      have hl := tautological_eq_some htautological
      have hc : s.Pending c := by
        rw [← hpending]
        by_contra hnot
        rw [(tautological_eq_none_iff_pending s₁ c).mpr hnot] at htautological
        cases htautological
      simp only
      cases hindex : reduceHash (computeHash l) s₁.clauses.length with
      | none =>
          right
          refine ⟨⟨_, rfl⟩, hc, ?_⟩
          have hzero : s₁.clauses.length = 0 := by
            by_contra hne
            obtain ⟨i, -, hi⟩ := exists_reduceHash (Nat.pos_of_ne_zero hne) (computeHash l)
            rw [hindex] at hi
            cases hi
          rw [← himported.count, count, List.eq_nil_of_length_eq_zero hzero]
          rfl
      | some i =>
          obtain ⟨hsome, hnone⟩ := himported.inv.delete_simplified hl hindex
          simp only
          cases hfind : s₁.find l (computeHash l) (s₁.clauses.getD i []) with
          | none => exact Or.inr ⟨⟨_, rfl⟩, hc, (himported.count c).symm.trans (hnone hfind)⟩
          | some e =>
              left
              have hremoved := hsome e hfind
              refine ⟨_, rfl, himported.deleted hinconsistent hremoved, ?_⟩
              intro _
              have hcount := hremoved.count c (by rw [himported.trail]; exact hc.2)
              rw [if_pos rfl, himported.count] at hcount
              omega

/-! ### Runs -/

/-- The checker has accepted the calls, one after the other. -/
inductive Run : List Event → Checker → Prop
  | init : Run [] init
  | step {es : List Event} {s t : Checker} (h : Run es s) (e : Event) (he : s.step e = .ok t) :
      Run (es ++ [e]) t

/-- The original clauses. -/
def originals (es : List Event) : Set (Clause Lit) :=
  {c | .original c ∈ es}

/-- How often a clause with these literals has been added. -/
def additions (es : List Event) (c : List Lit) : Nat :=
  es.countP (Event.adds c)

/-- How often a clause with these literals has been deleted. -/
def deletions (es : List Event) (c : List Lit) : Nat :=
  es.countP (Event.deletes c)

/-- The clauses that have been added more often than deleted. -/
def live (es : List Event) : Set (Clause Lit) :=
  {c | deletions es c < additions es c}

variable {es : List Event} {e : Event} {t : Checker}

theorem Inv.called (h : s.Inv) (hinconsistent : s.inconsistent = false)
    (he : s.step e = .ok t) :
  s.Called t e
  := by
  cases e with
  | original c =>
      obtain ⟨s', hs', hcalled⟩ := h.addOriginalClause hinconsistent c
      obtain rfl : s' = t := Except.ok.inj (hs'.symm.trans he)
      exact hcalled
  | derived c =>
      obtain ⟨s', hs', hcalled⟩ | ⟨herror, -⟩ := h.addDerivedClause hinconsistent c
      · obtain rfl : s' = t := Except.ok.inj (hs'.symm.trans he)
        exact hcalled
      · exact absurd (herror.symm.trans he) nofun
  | delete c =>
      obtain ⟨s', hs', hcalled, -⟩ | ⟨⟨f, herror⟩, -⟩ := h.deleteClause hinconsistent c
      · obtain rfl : s' = t := Except.ok.inj (hs'.symm.trans he)
        exact hcalled
      · exact absurd (herror.symm.trans he) nofun

/-- Once the inconsistency has been found, calls are ignored. -/
theorem step_of_inconsistent (h : s.inconsistent = true) (e : Event) :
  s.step e = .ok s
  := by
  cases e with
  | original c => exact if_pos h
  | derived c => exact if_pos h
  | delete c => exact if_pos h

/-- What holds after a run. -/
structure Ok (s : Checker) (es : List Event) : Prop where
  inv : s.inconsistent = false → s.Inv
  holds : s.inconsistent = false → ∀ σ, Models σ (originals es) → s.Holds σ
  unsat : s.inconsistent = true → ∀ σ, ¬ Models σ (originals es)
  count : s.inconsistent = false → ∀ c, s.Pending c →
    additions es c = deletions es c + s.count c

/-- Without clauses the invariant holds. -/
theorem inv_init :
  init.Inv
  := by
  refine ⟨⟨⟨⟨?_, List.nodup_nil, nofun, rfl, rfl, le_rfl, nofun, nofun, nofun, nofun, nofun, nofun⟩,
    ⟨List.nodup_nil, nofun, nofun, le_rfl⟩, le_rfl, WatchTable.empty nofun, nofun⟩, nofun⟩, rfl⟩
  intro h c hc
  exact absurd (Chains.mem_flatten_of_mem_getD hc) List.not_mem_nil

/-- A call that is accepted keeps what the run has. -/
theorem Ok.step (h : s.Ok es) (he : s.step e = .ok t) :
  t.Ok (es ++ [e])
  := by
  have hmodels {σ : Assignment Nat} (hσ : Models σ (originals (es ++ [e]))) :
      Models σ (originals es) ∧ ∀ c, e = .original c → Clause.Sat σ c := by
    refine ⟨fun c hc => hσ c (List.mem_append_left _ hc), ?_⟩
    rintro c rfl
    exact hσ c (List.mem_append_right _ (List.mem_singleton_self _))
  cases hinconsistent : s.inconsistent with
  | true =>
      obtain rfl : s = t := Except.ok.inj ((step_of_inconsistent hinconsistent e).symm.trans he)
      have hfalse {p : Prop} (hp : s.inconsistent = false) : p :=
        absurd (hinconsistent.symm.trans hp) (by decide)
      exact ⟨hfalse, hfalse, fun hs σ hσ => h.unsat hs σ (hmodels hσ).1, hfalse⟩
  | false =>
      have hcalled := (h.inv hinconsistent).called hinconsistent he
      refine ⟨hcalled.inv, ?_, ?_, ?_⟩
      · intro _ σ hσ
        exact (hcalled.holds σ (h.holds hinconsistent σ (hmodels hσ).1) (hmodels hσ).2).2
      · intro ht σ hσ
        have hfalse := (hcalled.holds σ (h.holds hinconsistent σ (hmodels hσ).1) (hmodels hσ).2).1
        rw [ht] at hfalse
        cases hfalse
      · intro ht c hc
        have hpending : s.Pending c :=
          ⟨hc.1, fun k hk hmem => hc.2 k hk (hcalled.trail.subset hmem)⟩
        have hold := h.count hinconsistent c hpending
        have hnew := hcalled.count ht c hc
        rw [additions, deletions, List.countP_append, List.countP_append, List.countP_singleton,
          List.countP_singleton]
        rw [additions, deletions] at hold
        omega

/-- Whatever is accepted, the state fits the events. -/
theorem Run.ok (h : Run es s) :
  s.Ok es
  := by
  induction h with
  | init =>
      exact ⟨fun _ => inv_init, fun _ σ _ => ⟨nofun, nofun⟩, nofun, fun _ _ _ => rfl⟩
  | step h e he ih => exact ih.step he

/-- The state in front of a call of the run. -/
theorem Run.exists_step {pre post : List Event} (h : Run es s) (heq : es = pre ++ e :: post) :
  ∃ s₁ s₂, Run pre s₁ ∧ s₁.step e = .ok s₂
  := by
  induction h generalizing post with
  | init => exact absurd heq.symm (by simp)
  | @step es s t h e' he ih =>
      obtain rfl | ⟨post, x, rfl⟩ := List.eq_nil_or_concat post
      · obtain ⟨rfl, hlast⟩ := List.append_inj' heq rfl
        obtain rfl : e' = e := List.singleton_inj.mp hlast
        exact ⟨s, t, h, he⟩
      · rw [List.concat_eq_append, ← List.cons_append, ← List.append_assoc] at heq
        exact ih (List.append_inj' heq rfl).1

/-! ### What the checker promises -/

/-- Every derived clause that has been accepted follows from the original clauses that were added
before it, and when the checker has found an inconsistency, the original clauses have no model. -/
theorem derived_entailed (h : Run es s) :
  (∀ pre c post, es = pre ++ .derived c :: post → Entails (originals pre) c)
    ∧ (s.inconsistent = true → ¬ Satisfiable (originals es))
  := by
  refine ⟨?_, fun hinconsistent ⟨σ, hσ⟩ => h.ok.unsat hinconsistent σ hσ⟩
  intro pre c post heq σ hσ
  obtain ⟨s₁, s₂, hpre, hstep⟩ := h.exists_step heq
  cases hinconsistent : s₁.inconsistent with
  | true => exact absurd hσ (hpre.ok.unsat hinconsistent σ)
  | false =>
      have hcalled := (hpre.ok.inv hinconsistent).called hinconsistent hstep
      exact hcalled.entailed c rfl σ (hpre.ok.holds hinconsistent σ hσ)

/-- Open clauses are closed under unit propagation. -/
theorem Open.closed {T : Lit → Prop} (hT : s.Open c T)
    (hlive : ∀ d ∈ live es, s.Pending d → 0 < s.count d) :
  Closed (live es) T
  where
    consistent := hT.consistent
    clause := by
      intro d hd
      by_cases hpending : s.Pending d
      · obtain ⟨e, he, hsame⟩ := (s.count_pos_iff d).mp (hlive d hd hpending)
        have hmem {k : Lit} (hk : k ∈ s.lits e) : k ∈ d := by
          rwa [← List.mem_toFinset, ← hsame, List.mem_toFinset]
        obtain ⟨x, hx, hTx⟩ | ⟨k, hk, x, hx, hne, hTk, hTx⟩ := hT.clause e he
        · exact Or.inl ⟨x, hmem hx, hTx⟩
        · exact Or.inr ⟨k, hmem hk, x, hmem hx, hne, hTk, hTx⟩
      · rw [← tautological_eq_none_iff_pending, tautological_eq_none_iff] at hpending
        obtain ⟨k, hk, hneg⟩ | ⟨k, hk, htrail⟩ := hpending
        · by_cases hTk : T k
          · exact Or.inl ⟨k, hk, hTk⟩
          · by_cases hTneg : T (-k)
            · exact Or.inl ⟨-k, hneg, hTneg⟩
            · refine Or.inr ⟨k, hk, -k, hneg, k.neg_ne.symm, hTneg, ?_⟩
              rw [show Literal.neg (-k) = k from k.neg_neg]
              exact hTk
        · exact Or.inl ⟨k, hk, hT.trail k htrail⟩

/-- An original clause is accepted. -/
theorem Run.addOriginalClause (h : Run es s) (c : List Lit) :
  ∃ t, s.step (.original c) = .ok t
  := by
  cases hinconsistent : s.inconsistent with
  | true => exact ⟨s, step_of_inconsistent hinconsistent _⟩
  | false =>
      obtain ⟨t, ht, -⟩ := (h.ok.inv hinconsistent).addOriginalClause hinconsistent c
      exact ⟨t, ht⟩

/-- A derived clause is accepted, or it does not follow. -/
theorem Run.addDerivedClause (h : Run es s) (c : List Lit) :
  (∃ t, s.step (.derived c) = .ok t)
    ∨ s.step (.derived c) = .error (.failedToCheck c) ∧ ¬ Rup (live es) c
  := by
  cases hinconsistent : s.inconsistent with
  | true => exact Or.inl ⟨s, step_of_inconsistent hinconsistent _⟩
  | false =>
      obtain ⟨t, ht, -⟩ | ⟨herror, hpending, T, hT⟩ :=
        (h.ok.inv hinconsistent).addDerivedClause hinconsistent c
      · exact Or.inl ⟨t, ht⟩
      · refine Or.inr ⟨herror, ?_⟩
        have hclosed : Closed (live es) T := by
          apply hT.closed
          intro d hd hd'
          have hcount := h.ok.count hinconsistent d hd'
          have hlt : deletions es d < additions es d := hd
          omega
        apply hclosed.not_refuted
        intro l hl
        have hassumed := hT.assumed (-l) hl
        rwa [Lit.neg_neg] at hassumed

/-- Original clauses are always accepted, and a derived clause is accepted, unless it does not
follow by reverse unit propagation from the clauses that have been added more often than
deleted; then the message says so. -/
theorem rup_accepted (h : Run es s) (c : List Lit) :
  (∃ t, s.step (.original c) = .ok t)
    ∧ ((∃ t, s.step (.derived c) = .ok t)
      ∨ s.step (.derived c) = .error (.failedToCheck c) ∧ ¬ Rup (live es) c)
  := ⟨h.addOriginalClause c, h.addDerivedClause c⟩

/-- The deletion of a clause is accepted if and only if the checker is inconsistent, the clause is
tautological or satisfied on root level, or a clause with the same literals has been added more
often than deleted. -/
theorem delete_accepted_iff (h : Run es s) (c : List Lit) :
  (∃ t, s.step (.delete c) = .ok t)
    ↔ s.inconsistent = true ∨ (∃ k ∈ c, -k ∈ c ∨ k ∈ s.trail) ∨ deletions es c < additions es c
  := by
  cases hinconsistent : s.inconsistent with
  | true => exact ⟨fun _ => Or.inl rfl, fun _ => ⟨s, step_of_inconsistent hinconsistent _⟩⟩
  | false =>
      have hpending : (∃ k ∈ c, -k ∈ c ∨ k ∈ s.trail) ↔ ¬ s.Pending c := by
        rw [← tautological_eq_none_iff_pending, tautological_eq_none_iff, ← exists_or]
        exact exists_congr (fun k => and_or_left)
      rw [hpending]
      obtain ⟨t, ht, -, hcount⟩ | ⟨⟨f, herror⟩, hc, hzero⟩ :=
        (h.ok.inv hinconsistent).deleteClause hinconsistent c
      · refine ⟨fun _ => ?_, fun _ => ⟨t, ht⟩⟩
        right
        by_cases hc : s.Pending c
        · right
          have hpos := hcount hc
          have heq := h.ok.count hinconsistent c hc
          omega
        · exact Or.inl hc
      · constructor
        · rintro ⟨t, ht⟩
          exact absurd (herror.symm.trans ht) nofun
        · have heq := h.ok.count hinconsistent c hc
          rintro (hfalse | hnot | hlt)
          · cases hfalse
          · exact absurd hc hnot
          · omega

/-! ### A small run -/

section Run

/-- The checker after the call, if it is accepted. -/
def next (s : Checker) (e : Event) : Checker :=
  match s.step e with
  | .ok t => t
  | .error _ => s

/-- A run goes on with an event that is accepted. -/
theorem Run.next (h : Run es s) (e : Event) (he : (s.step e).isOk = true) :
  Run (es ++ [e]) (s.next e)
  := by
  apply h.step
  rw [Checker.next]
  cases hstep : s.step e with
  | ok t => rfl
  | error f =>
      rw [hstep] at he
      cases he

/-- The literal of a number. -/
def binary (a b : Int) : List Lit :=
  [Lit.ofInt a, Lit.ofInt b]

/-- Three clauses have been added, a clause has been derived from the first two, and one of them
has been deleted. -/
def events : List Event :=
  [.original (binary 1 2), .original (binary 1 (-2)), .original (binary (-1) 3),
    .derived [Lit.ofInt 3, Lit.ofInt 1], .delete (binary (-2) 1)]

/-- The events are accepted one by one. -/
theorem run_events :
  Run events (events.foldl next init)
  := by
  have h₁ := Run.init.next (.original (binary 1 2)) (by decide +kernel)
  have h₂ := h₁.next (.original (binary 1 (-2))) (by decide +kernel)
  have h₃ := h₂.next (.original (binary (-1) 3)) (by decide +kernel)
  have h₄ := h₃.next (.derived [Lit.ofInt 3, Lit.ofInt 1]) (by decide +kernel)
  exact h₄.next (.delete (binary (-2) 1)) (by decide +kernel)

/-- The derived clause follows from the clauses in front of it. -/
theorem derived_entailed_events :
  (∀ pre c post, events = pre ++ .derived c :: post → Entails (originals pre) c)
    ∧ ((events.foldl next init).inconsistent = true → ¬ Satisfiable (originals events))
  := derived_entailed run_events

/-- The unit clause is still accepted, although one of its clauses has been deleted. -/
theorem rup_accepted_events :
  (∃ t, (events.foldl next init).step (.original [Lit.ofInt 3]) = .ok t)
    ∧ ((∃ t, (events.foldl next init).step (.derived [Lit.ofInt 3]) = .ok t)
      ∨ (events.foldl next init).step (.derived [Lit.ofInt 3])
          = .error (.failedToCheck [Lit.ofInt 3])
        ∧ ¬ Rup (live events) [Lit.ofInt 3])
  := rup_accepted run_events [Lit.ofInt 3]

/-- Whether the deletion of another clause is accepted. -/
theorem delete_accepted_iff_events :
  (∃ t, (events.foldl next init).step (.delete (binary 1 (-2))) = .ok t)
    ↔ (events.foldl next init).inconsistent = true
      ∨ (∃ k ∈ binary 1 (-2), -k ∈ binary 1 (-2) ∨ k ∈ (events.foldl next init).trail)
      ∨ deletions events (binary 1 (-2)) < additions events (binary 1 (-2))
  := delete_accepted_iff run_events (binary 1 (-2))

end Run

end Checker

end Cadical
