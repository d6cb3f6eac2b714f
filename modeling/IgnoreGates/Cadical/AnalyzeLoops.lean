import IgnoreGates.Cadical.AnalyzeReason

/-!
# The loops of the conflict analysis

Both loops trace the conflict back and extend the set of expanded literals by one literal in
each step.  The first one stops at the last unique implication point of the conflict level
that is not auxiliary or has no reason, the second one when the clause contains no auxiliary
literal any more.
-/

namespace Cadical

open Logic ImplicationGraph

namespace Search

variable {s : Search} {conflict : List Lit} {e : External}

/-! ### Traced literals -/

theorem graph_reason {x : Lit} (hx : x ∈ s.trail) :
  (s.graph conflict).reason x = (s.var x).reason
  := if_pos hx

theorem mem_of_graph_reason {x : Lit} {r : List Lit} (h : (s.graph conflict).reason x = some r) :
  x ∈ s.trail ∧ (s.var x).reason = some r
  := by
  have hx : x ∈ s.trail := by
    by_contra hx
    have hnone : (s.graph conflict).reason x = none := if_neg hx
    rw [hnone] at h
    cases h
  rw [graph_reason hx] at h
  exact ⟨hx, h⟩

theorem graph_not_fixed {x : Lit} (hx : x ∈ s.trail) :
  ¬ (s.graph conflict).fixed x ↔ 0 < (s.var x).level
  := by
  rw [Nat.pos_iff_ne_zero]
  exact ⟨fun h hzero => h ⟨hx, hzero⟩, fun h hfixed => h hfixed.2⟩

/-- The other literals of a reason are false. -/
theorem Inv.reason_false (h : s.Inv) {x : Lit} (hx : x ∈ s.trail) {r : List Lit}
    (hr : (s.var x).reason = some r) {k : Lit} (hk : k ∈ r) (hkx : k ≠ x) :
  -k ∈ s.trail ∧ (s.var k).level ≤ (s.var x).level
  := by
  obtain ⟨pre, post, hsplit⟩ := List.append_of_mem hx
  obtain ⟨hkpre, hle⟩ := h.before pre x post r hsplit hr k hk hkx
  rw [hsplit]
  exact ⟨List.mem_append_left _ hkpre, hle⟩

/-- The complement of a literal is not in its reason. -/
theorem Inv.neg_not_mem_reason (h : s.Inv) {x : Lit} (hx : x ∈ s.trail) {r : List Lit}
    (hr : (s.var x).reason = some r) :
  -x ∉ r
  := by
  intro hmem
  obtain ⟨pre, post, hsplit⟩ := List.append_of_mem hx
  have hpre := (h.before pre x post r hsplit hr (-x) hmem x.neg_ne).1
  rw [Lit.neg_neg] at hpre
  have hnodup := h.nodup.of_map
  rw [hsplit, List.nodup_append'] at hnodup
  exact hnodup.2.2 hpre List.mem_cons_self

theorem Inv.traced_mem (h : s.Inv) (hfalse : ∀ k ∈ conflict, -k ∈ s.trail) {E : Lit → Prop}
    {x : Lit} (hx : (s.graph conflict).Traced E x) :
  x ∈ s.trail
  := by
  cases hx with
  | conflict hx hfixed =>
      have hmem : - -x ∈ s.trail := hfalse _ hx
      rwa [Lit.neg_neg] at hmem
  | reason hy hE hr hx hxy hfixed =>
      obtain ⟨hymem, hr⟩ := mem_of_graph_reason hr
      have hmem : - -x ∈ s.trail := (h.reason_false hymem hr hx hxy).1
      rwa [Lit.neg_neg] at hmem

/-- From a traced literal of the current level one comes to a decision, and not to literals
that are behind it on the trail. -/
theorem Inv.exists_decision (h : s.Inv) {y : Lit} (n : Nat) :
  ∀ {pre post : List Lit}, pre.length = n → s.trail = pre ++ post → y ∉ pre → ∀ {z : Lit},
    z ∈ pre → (s.var z).level = s.level → 0 < s.level →
    (s.graph conflict).Traced (fun w => (s.var w).level = s.level ∧ w ≠ y) z →
    ∃ x ∈ pre, (s.graph conflict).Traced (fun w => (s.var w).level = s.level ∧ w ≠ y) x
      ∧ (s.var x).level = s.level ∧ (s.var x).reason = none
  := by
  induction n using Nat.strong_induction_on with
  | h n ih =>
      intro pre post hlen hsplit hy z hz hlevel hpos htraced
      have hzmem : z ∈ s.trail := by
        rw [hsplit]
        exact List.mem_append_left _ hz
      have hzy : z ≠ y := by
        rintro rfl
        exact hy hz
      cases hr : (s.var z).reason with
      | none => exact ⟨z, hz, htraced, hlevel, hr⟩
      | some r =>
          obtain ⟨k, hk, hkz, hklevel⟩ := h.same_level z hzmem r hr
          obtain ⟨pre', post', rfl⟩ := List.append_of_mem hz
          rw [List.append_assoc] at hsplit
          have hkpre := (h.before pre' z (post' ++ post) r hsplit hr k hk hkz).1
          have hktraced : (s.graph conflict).Traced
              (fun w => (s.var w).level = s.level ∧ w ≠ y) (-k) := by
            apply Traced.reason htraced ⟨hlevel, hzy⟩ ((graph_reason hzmem).trans hr)
            · rwa [show Literal.neg (-k) = k from Lit.neg_neg k]
            · rwa [show Literal.neg (-k) = k from Lit.neg_neg k]
            · rw [graph_not_fixed (h.reason_false hzmem hr hk hkz).1, var_neg, hklevel, hlevel]
              exact hpos
          obtain ⟨x, hx, hxspec⟩ := ih pre'.length (by rw [← hlen, List.length_append]; simp)
            rfl hsplit (fun hmem => hy (List.mem_append_left _ hmem)) hkpre
            (by rw [var_neg, hklevel, hlevel]) hpos hktraced
          exact ⟨x, List.mem_append_left _ hx, hxspec⟩

/-- What has been seen when the literals in `E` have been expanded. -/
structure Explored (s : Search) (conflict : List Lit) (E : Lit → Prop) (a : Analysis) : Prop where
  of_conflict : ∀ x ∈ s.trail, -x ∈ conflict → 0 < (s.var x).level → a.seen x.vidx = true
  of_reason : ∀ y ∈ s.trail, E y → ∀ r, (s.var y).reason = some r →
    ∀ x ∈ s.trail, -x ∈ r → -x ≠ y → 0 < (s.var x).level → a.seen x.vidx = true
  traced : ∀ x ∈ s.trail, a.seen x.vidx = true → (s.graph conflict).Traced E x

theorem Explored.level_pos {E : Lit → Prop} {a : Analysis} (h : s.Explored conflict E a) {x : Lit}
    (hx : x ∈ s.trail) (hseen : a.seen x.vidx = true) :
  0 < (s.var x).level
  := (graph_not_fixed hx).mp (h.traced x hx hseen).not_fixed

theorem explored_conflict (h : s.Inv) (hfalse : ∀ k ∈ conflict, -k ∈ s.trail) :
  s.Explored conflict (fun _ => False) (s.analyzeReason .init none conflict)
  := by
  have hgrows := h.analyzeReason .init none (fun k hk _ => hfalse k hk)
  refine ⟨?_, by simp, ?_⟩
  · intro x hx hxmem hpos
    exact (hgrows.seen x hx).mpr (Or.inr ⟨⟨hxmem, by simp⟩, hpos⟩)
  · intro x hx hseen
    obtain hinit | ⟨⟨hxmem, -⟩, hpos⟩ := (hgrows.seen x hx).mp hseen
    · cases hinit
    · exact .conflict hxmem ((graph_not_fixed hx).mpr hpos)

/-- Analyzing the reason of a seen literal expands it. -/
theorem Explored.expand {E : Lit → Prop} {a : Analysis}
    (hexplored : s.Explored conflict E a) {y : Lit} (hy : y ∈ s.trail)
    (hseen : a.seen y.vidx = true) {r : List Lit} (hr : (s.var y).reason = some r)
    {a' : Analysis} (hgrows : s.Grows (fun x => -x ∈ r ∧ some (-x) ≠ some y) a a') :
  s.Explored conflict (fun x => x = y ∨ E x) a'
  := by
  have hmono {x : Lit} (hx : (s.graph conflict).Traced E x) :
      (s.graph conflict).Traced (fun x => x = y ∨ E x) x :=
    hx.mono (fun _ _ hE => Or.inr hE)
  refine ⟨?_, ?_, ?_⟩
  · intro x hx hxmem hpos
    exact (hgrows.seen x hx).mpr (Or.inl (hexplored.of_conflict x hx hxmem hpos))
  · rintro z hz hzE r' hr' x hx hxmem hxz hpos
    apply (hgrows.seen x hx).mpr
    obtain rfl | hzE := hzE
    · obtain rfl := Option.some.inj (hr.symm.trans hr')
      exact Or.inr ⟨⟨hxmem, fun heq => hxz (Option.some.inj heq)⟩, hpos⟩
    · exact Or.inl (hexplored.of_reason z hz hzE r' hr' x hx hxmem hxz hpos)
  · intro x hx hxseen
    obtain hxseen | ⟨⟨hxmem, hxy⟩, hpos⟩ := (hgrows.seen x hx).mp hxseen
    · exact hmono (hexplored.traced x hx hxseen)
    · exact .reason (hmono (hexplored.traced y hy hseen)) (Or.inl rfl)
        ((graph_reason hy).trans hr) hxmem (fun heq => hxy (congrArg some heq))
        ((graph_not_fixed hx).mpr hpos)

/-! ### The first loop -/

/-- The invariant of the first loop: the part `post` of the trail has been visited, and its
seen literals of the current level, which are in `done`, have been expanded. -/
structure UipInv (s : Search) (e : External) (conflict : List Lit) (done rest post : List Lit)
    (a : Analysis) : Prop where
  split : s.trail = rest.reverse ++ post
  explored : s.Explored conflict (· ∈ done) a
  expanded : ∀ y ∈ done, y ∈ post ∧ (s.var y).level = s.level ∧ (s.var y).reason ≠ none
    ∧ (e.isAux y = true ∨ ¬ s.UniqueImplicationPoint conflict y)
  visited : ∀ y ∈ post, (s.var y).level = s.level → a.seen y.vidx = true → y ∈ done
  clause : ∀ x ∈ s.trail, -x ∈ a.clause ↔ a.seen x.vidx = true ∧ (s.var x).level < s.level
  clause_false : ∀ k ∈ a.clause, -k ∈ s.trail
  open_ : a.open_ = s.openIn a rest

/-- The state behind the first loop. -/
structure UipFound (s : Search) (e : External) (conflict : List Lit) (done : List Lit) (u : Lit)
    (a : Analysis) : Prop where
  explored : s.Explored conflict (· ∈ done) a
  expanded : ∀ y ∈ done, y ∈ s.trail ∧ y ≠ u ∧ (s.var y).level = s.level ∧ (s.var y).reason ≠ none
    ∧ (e.isAux y = true ∨ ¬ s.UniqueImplicationPoint conflict y)
  visited : ∀ y ∈ s.trail, (s.var y).level = s.level → a.seen y.vidx = true → y ∈ done ∨ y = u
  clause : ∀ x ∈ s.trail, -x ∈ a.clause ↔ a.seen x.vidx = true ∧ (s.var x).level < s.level
  clause_false : ∀ k ∈ a.clause, -k ∈ s.trail
  mem : u ∈ s.trail
  seen : a.seen u.vidx = true
  level : (s.var u).level = s.level
  stop : e.isAux u = false ∨ (s.var u).reason = none

/-- A literal that is expanded although another one of its level is open and not visited is
no unique implication point. -/
theorem UipInv.not_uniqueImplicationPoint (h : s.Inv) {done rest post : List Lit} {y : Lit}
    {a : Analysis} (hinv : s.UipInv e conflict done (y :: rest) post a)
    (hopen : 0 < s.openIn a rest) (hpos : 0 < s.level) :
  ¬ s.UniqueImplicationPoint conflict y
  := by
  obtain ⟨z, hz, hseen, hlevel⟩ := openIn_pos.mp hopen
  have hsplit : s.trail = rest.reverse ++ (y :: post) := by
    rw [hinv.split, List.reverse_cons, List.append_assoc, List.singleton_append]
  have hnodup := h.nodup.of_map
  rw [hsplit, List.nodup_append'] at hnodup
  have hy : y ∉ rest.reverse := fun hmem =>
    hnodup.2.2 hmem List.mem_cons_self
  have hzmem : z ∈ s.trail := by
    rw [hsplit]
    exact List.mem_append_left _ (List.mem_reverse.mpr hz)
  have htraced : (s.graph conflict).Traced (fun w => (s.var w).level = s.level ∧ w ≠ y) z := by
    apply (hinv.explored.traced z hzmem hseen).mono
    intro w _ hw
    obtain ⟨hpost, hwlevel, -⟩ := hinv.expanded w hw
    refine ⟨hwlevel, ?_⟩
    rintro rfl
    exact (List.nodup_cons.mp hnodup.2.1).1 hpost
  obtain ⟨x, hx, hxtraced, hxlevel, hxreason⟩ := h.exists_decision _ rfl hsplit hy
    (List.mem_reverse.mpr hz) hlevel hpos htraced
  intro huip
  obtain rfl := huip x hxtraced hxlevel hxreason
  exact hy hx

/-- Expanding the literal that is visited keeps the invariant. -/
theorem UipInv.expand (h : s.Inv) {done rest post : List Lit} {y : Lit} {a : Analysis}
    (hinv : s.UipInv e conflict done (y :: rest) post a) (hpos : 0 < s.level)
    (hseen : a.seen y.vidx = true) (hlevel : (s.var y).level = s.level) {r : List Lit}
    (hr : (s.var y).reason = some r)
    (hgo : e.isAux y = true ∨ ¬ s.UniqueImplicationPoint conflict y) :
  s.UipInv e conflict (y :: done) rest (y :: post)
      (s.analyzeReason { a with open_ := a.open_ - 1 } (some y) r)
    ∧ 0 < s.openIn (s.analyzeReason { a with open_ := a.open_ - 1 } (some y) r) rest
  := by
  have hsplit : s.trail = rest.reverse ++ (y :: post) := by
    rw [hinv.split, List.reverse_cons, List.append_assoc, List.singleton_append]
  have hy : y ∈ s.trail := by
    rw [hsplit]
    exact List.mem_append_right _ List.mem_cons_self
  have hnodup := h.nodup.of_map
  rw [hsplit, List.nodup_append'] at hnodup
  have hgrows := h.analyzeReason { a with open_ := a.open_ - 1 } (some y)
    (fun (k : Lit) (hk : k ∈ r) hky => (h.reason_false hy hr hk (fun heq => hky (congrArg some heq))).1)
  have hexplored : s.Explored conflict (· ∈ done) { a with open_ := a.open_ - 1 } :=
    ⟨hinv.explored.of_conflict, hinv.explored.of_reason, hinv.explored.traced⟩
  have hbefore {x : Lit} (hx : -x ∈ r ∧ some (-x) ≠ some y) : x ∈ rest.reverse := by
    have hmem := (h.before _ y post r hsplit hr (-x) hx.1
      (fun heq => hx.2 (congrArg some heq))).1
    rwa [Lit.neg_neg] at hmem
  refine ⟨⟨hsplit, ?_, ?_, ?_, ?_, ?_, ?_⟩, ?_⟩
  · have hexpand := hexplored.expand hy hseen hr hgrows
    simpa only [List.mem_cons] using hexpand
  · intro z hz
    obtain rfl | hz := List.mem_cons.mp hz
    · exact ⟨List.mem_cons_self, hlevel, by rw [hr]; exact Option.some_ne_none r, hgo⟩
    · obtain ⟨hpost, hrest⟩ := hinv.expanded z hz
      exact ⟨List.mem_cons_of_mem y hpost, hrest⟩
  · intro z hz hzlevel hzseen
    obtain rfl | hz := List.mem_cons.mp hz
    · exact List.mem_cons_self
    · have hzmem : z ∈ s.trail := by
        rw [hsplit]
        exact List.mem_append_right _ (List.mem_cons_of_mem y hz)
      obtain hzseen | ⟨hhit, -⟩ := (hgrows.seen z hzmem).mp hzseen
      · exact List.mem_cons_of_mem y (hinv.visited z hz hzlevel hzseen)
      · exact absurd (List.mem_cons_of_mem y hz) (fun hmem => hnodup.2.2 (hbefore hhit) hmem)
  · obtain ⟨new, hnew, hmem, hiff⟩ := hgrows.clause
    intro x hx
    rw [hnew, List.mem_append, hinv.clause x hx, hiff x hx]
    have hmono := (hgrows.seen x hx).mpr
    constructor
    · rintro (⟨hxseen, hlt⟩ | ⟨hxseen, -, hlt⟩)
      · exact ⟨hmono (Or.inl hxseen), hlt⟩
      · exact ⟨hxseen, hlt⟩
    · rintro ⟨hxseen, hlt⟩
      cases hold : a.seen x.vidx with
      | true => exact Or.inl ⟨rfl, hlt⟩
      | false => exact Or.inr ⟨hxseen, rfl, hlt⟩
  · obtain ⟨new, hnew, hmem, hiff⟩ := hgrows.clause
    intro k hk
    rw [hnew] at hk
    obtain hk | hk := List.mem_append.mp hk
    · exact hinv.clause_false k hk
    · exact hmem k hk
  · have hrestsub : rest ⊆ s.trail := by
      intro x hx
      rw [hsplit]
      exact List.mem_append_left _ (List.mem_reverse.mpr hx)
    have hopen := hgrows.open_ rest hrestsub (List.nodup_reverse.mp hnodup.1)
      (fun x hx hhit _ => List.mem_reverse.mp (hbefore hhit))
    have hcons : s.openIn a (y :: rest) = s.openIn a rest + 1 := by
      rw [openIn, List.countP_cons_of_pos (by simp [hseen, hlevel])]
      rfl
    have hold := hinv.open_
    rw [hcons] at hold
    change _ = a.open_ - 1 - (s.openIn a rest : Int) at hopen
    omega
  · obtain ⟨k, hk, hky, hklevel⟩ := h.same_level y hy r hr
    have hkfalse := (h.reason_false hy hr hk hky).1
    have hhit : -(-k) ∈ r ∧ some (-(-k)) ≠ some y := by
      rw [Lit.neg_neg]
      exact ⟨hk, fun heq => hky (Option.some.inj heq)⟩
    apply openIn_pos.mpr
    use -k, List.mem_reverse.mp (hbefore hhit)
    have hkcur : (s.var (-k)).level = s.level := by rw [var_neg, hklevel, hlevel]
    exact ⟨(hgrows.seen _ hkfalse).mpr (Or.inr ⟨hhit, by rw [hkcur]; exact hpos⟩), hkcur⟩

/-- As long as literals are open, the first loop comes to its end. -/
theorem UipInv.uipLoop (h : s.Inv) (hpos : 0 < s.level) {done rest post : List Lit} {a : Analysis}
    (hinv : s.UipInv e conflict done rest post a) (hopen : 0 < s.openIn a rest) :
  ∃ u a' done', s.uipLoop e a rest = some (u, a') ∧ s.UipFound e conflict done' u a'
  := by
  induction rest generalizing done post a with
  | nil => exact absurd hopen (Nat.lt_irrefl 0)
  | cons y rest ih =>
      have hsplit : s.trail = rest.reverse ++ (y :: post) := by
        rw [hinv.split, List.reverse_cons, List.append_assoc, List.singleton_append]
      have hy : y ∈ s.trail := by
        rw [hsplit]
        exact List.mem_append_right _ List.mem_cons_self
      rw [Search.uipLoop]
      by_cases hvisit : a.seen y.vidx = true ∧ (s.var y).level = s.level
      · obtain ⟨hseen, hlevel⟩ := hvisit
        rw [if_pos ⟨hseen, hlevel⟩]
        have hcons : s.openIn a (y :: rest) = s.openIn a rest + 1 := by
          rw [openIn, List.countP_cons_of_pos (by simp [hseen, hlevel])]
          rfl
        have hopen_ : a.open_ - 1 = s.openIn a rest := by
          rw [hinv.open_, hcons]
          omega
        simp only
        split
        · next hstop =>
            have hclosed : ¬ 0 < s.openIn a rest := by omega
            refine ⟨y, _, done, rfl, ⟨hinv.explored.of_conflict, hinv.explored.of_reason,
              hinv.explored.traced⟩, ?_, ?_, hinv.clause, hinv.clause_false, hy, hseen, hlevel,
              hstop.2⟩
            · have hnodup := h.nodup.of_map
              rw [hsplit, List.nodup_append'] at hnodup
              intro z hz
              obtain ⟨hpost, hrest⟩ := hinv.expanded z hz
              refine ⟨?_, ?_, hrest⟩
              · rw [hsplit]
                exact List.mem_append_right _ (List.mem_cons_of_mem y hpost)
              · rintro rfl
                exact (List.nodup_cons.mp hnodup.2.1).1 hpost
            · intro z hz hzlevel hzseen
              rw [hsplit, List.mem_append, List.mem_cons] at hz
              obtain hz | rfl | hz := hz
              · exact absurd (openIn_pos.mpr ⟨z, List.mem_reverse.mp hz, hzseen, hzlevel⟩) hclosed
              · exact Or.inr rfl
              · exact Or.inl (hinv.visited z hz hzlevel hzseen)
        · next hgo =>
            cases hr : (s.var y).reason with
            | none =>
                exfalso
                apply hgo
                refine ⟨?_, Or.inr hr⟩
                have hclosed : ¬ 0 < s.openIn a rest := by
                  rw [openIn_pos]
                  rintro ⟨z, hz, -, hzlevel⟩
                  exact h.first _ y post hsplit hr (hlevel ▸ hpos) z (List.mem_reverse.mpr hz)
                    (hzlevel.trans hlevel.symm)
                omega
            | some r =>
                have hexpanded : e.isAux y = true ∨ ¬ s.UniqueImplicationPoint conflict y := by
                  by_cases haux : e.isAux y = true
                  · exact Or.inl haux
                  · right
                    apply hinv.not_uniqueImplicationPoint h _ hpos
                    by_contra hclosed
                    exact hgo ⟨by omega, Or.inl (by simpa using haux)⟩
                obtain ⟨hinv', hopen'⟩ := hinv.expand h hpos hseen hlevel hr hexpanded
                exact ih hinv' hopen'
      · rw [if_neg hvisit]
        have hcons : s.openIn a (y :: rest) = s.openIn a rest := by
          rw [openIn, List.countP_cons_of_neg (by simpa using hvisit)]
          rfl
        refine ih (?_ : s.UipInv e conflict done rest (y :: post) a) (by rwa [hcons] at hopen)
        refine ⟨hsplit, hinv.explored, ?_, ?_, hinv.clause, hinv.clause_false, ?_⟩
        · intro z hz
          obtain ⟨hpost, hrest⟩ := hinv.expanded z hz
          exact ⟨List.mem_cons_of_mem y hpost, hrest⟩
        · intro z hz hzlevel hzseen
          obtain rfl | hz := List.mem_cons.mp hz
          · exact absurd ⟨hzseen, hzlevel⟩ hvisit
          · exact hinv.visited z hz hzlevel hzseen
        · rw [hinv.open_, hcons]

/-- The literal at which the first loop stops is a unique implication point. -/
theorem UipFound.uniqueImplicationPoint (h : s.Inv) (hfalse : ∀ k ∈ conflict, -k ∈ s.trail)
    {done : List Lit} {u : Lit} {a : Analysis} (hu : s.UipFound e conflict done u a) :
  s.UniqueImplicationPoint conflict u
  := by
  have hseen : ∀ x, (s.graph conflict).Traced (fun y => (s.var y).level = s.level ∧ y ≠ u) x →
      a.seen x.vidx = true := by
    intro x hx
    induction hx with
    | conflict hx hfixed =>
        have hmem := h.traced_mem hfalse (.conflict (E := fun _ => False) hx hfixed)
        exact hu.explored.of_conflict _ hmem hx ((graph_not_fixed hmem).mp hfixed)
    | reason hy hE hr hx hxy hfixed ih =>
        have hmem := h.traced_mem hfalse (.reason hy hE hr hx hxy hfixed)
        obtain ⟨hymem, hr⟩ := mem_of_graph_reason hr
        have hdone := (hu.visited _ hymem hE.1 ih).resolve_right hE.2
        exact hu.explored.of_reason _ hymem hdone _ hr _ hmem hx hxy
          ((graph_not_fixed hmem).mp hfixed)
  intro x hx hlevel hreason
  have hmem := h.traced_mem hfalse hx
  obtain hdone | rfl := hu.visited x hmem hlevel (hseen x hx)
  · exact absurd hreason (hu.expanded x hdone).2.2.2.1
  · rfl

/-! ### The second loop -/

theorem analyzeLiteral_of_seen {a : Analysis} {lit : Lit} (h : a.seen lit.vidx = true) :
  s.analyzeLiteral a lit = a
  := if_pos h

theorem analyzeLiteral_seen_mono {a : Analysis} {v : Nat} (h : a.seen v = true) (lit : Lit) :
  (s.analyzeLiteral a lit).seen v = true
  := by
  rw [analyzeLiteral]
  split
  · exact h
  · split
    · exact h
    · simp only
      by_cases hv : v = lit.vidx
      · rw [hv, Function.update_self]
      · rw [Function.update_of_ne hv, h]

/-- The second loop calls `analyze_reason` for a false literal, whose complement in the reason
has been seen before. -/
theorem analyzeReason_neg {a : Analysis} {y : Lit} (hseen : a.seen y.vidx = true) {r : List Lit}
    (hr : -y ∉ r) :
  s.analyzeReason a (some (-y)) r = s.analyzeReason a (some y) r
  := by
  induction r generalizing a with
  | nil => rfl
  | cons k r ih =>
      obtain ⟨hk, hr⟩ := not_or.mp (mt List.mem_cons.mpr hr)
      have hrest {b : Analysis} (hb : b.seen y.vidx = true) := ih hb hr
      simp only [analyzeReason, List.foldl_cons] at hrest ⊢
      rw [if_pos (fun heq => hk (Option.some.inj heq).symm)]
      by_cases hky : k = y
      · rw [hky, analyzeLiteral_of_seen hseen, if_neg (fun hne => hne rfl)]
        exact hrest hseen
      · rw [if_pos (fun heq => hky (Option.some.inj heq))]
        exact hrest (analyzeLiteral_seen_mono hseen k)

/-- The invariant of the second loop: the literals in `erased` have been erased from the
clause, and those with a reason have been expanded. -/
structure AuxInv (s : Search) (e : External) (conflict : List Lit) (done : List Lit) (u : Lit)
    (erased : List Lit) (i : Nat) (a : Analysis) : Prop where
  explored : s.Explored conflict (fun y => y ∈ done ∨ y ∈ erased) a
  erased_aux : ∀ y ∈ erased, y ∈ s.trail ∧ e.isAux y = true
  visited : ∀ y ∈ s.trail, (s.var y).level = s.level → a.seen y.vidx = true → y ∈ done ∨ y = u
  clause : ∀ x ∈ s.trail, -x ∈ a.clause ∨ x ∈ erased
    ↔ x = u ∨ a.seen x.vidx = true ∧ (s.var x).level < s.level
  clause_false : ∀ k ∈ a.clause, -k ∈ s.trail
  kept : ∀ k ∈ a.clause.take i, e.isAux k = false
  seen : a.seen u.vidx = true

theorem isAux_neg (e : External) (lit : Lit) :
  e.isAux (-lit) = e.isAux lit
  := by
  rw [External.isAux, External.isAux, Lit.vidx_neg]

/-- The entries of a list without the entry at an index. -/
theorem mem_or_mem_eraseIdx {α : Type*} {l : List α} {i : Nat} {a : α} (h : l[i]? = some a) {b : α} :
  b ∈ l.eraseIdx i ∨ b = a ↔ b ∈ l
  := by
  obtain ⟨hi, rfl⟩ := List.getElem?_eq_some_iff.mp h
  have hsplit : l.take i ++ l[i] :: l.drop (i + 1) = l := by simp
  rw [List.eraseIdx_eq_take_drop_succ]
  nth_rewrite 4 [← hsplit]
  rw [List.mem_append, List.mem_append, List.mem_cons]
  tauto

/-- Erasing a literal whose reason has been analyzed keeps the invariant. -/
theorem AuxInv.erase {done erased : List Lit} {u lit : Lit} {i : Nat} {a a' : Analysis}
    (hinv : s.AuxInv e conflict done u erased i a) (hlit : a.clause[i]? = some lit)
    (haux : e.isAux lit = true) {new : List Lit} (hnew : a'.clause = a.clause ++ new)
    (hnew_false : ∀ k ∈ new, -k ∈ s.trail)
    (hiff : ∀ x ∈ s.trail, -x ∈ new
      ↔ a'.seen x.vidx = true ∧ a.seen x.vidx = false ∧ (s.var x).level < s.level)
    (hmono : ∀ x ∈ s.trail, a.seen x.vidx = true → a'.seen x.vidx = true)
    (hvisited : ∀ y ∈ s.trail, (s.var y).level = s.level → a'.seen y.vidx = true →
      a.seen y.vidx = true)
    (hexplored : s.Explored conflict (fun y => y ∈ done ∨ y ∈ -lit :: erased) a')
    (hseen : a'.seen u.vidx = true) :
  s.AuxInv e conflict done u (-lit :: erased) i { a' with clause := a'.clause.eraseIdx i }
  := by
  obtain ⟨hi, -⟩ := List.getElem?_eq_some_iff.mp hlit
  have herase : a'.clause.eraseIdx i = a.clause.eraseIdx i ++ new := by
    rw [hnew, List.eraseIdx_append_of_lt_length hi]
  refine ⟨⟨hexplored.of_conflict, hexplored.of_reason, hexplored.traced⟩, ?_, ?_, ?_, ?_, ?_,
    hseen⟩
  · intro y hy
    obtain rfl | hy := List.mem_cons.mp hy
    · exact ⟨hinv.clause_false lit (List.mem_of_getElem? hlit), by rw [isAux_neg, haux]⟩
    · exact hinv.erased_aux y hy
  · intro y hy hlevel hyseen
    exact hinv.visited y hy hlevel (hvisited y hy hlevel hyseen)
  · intro x hx
    have hold := hinv.clause x hx
    have hxlit : x = -lit ↔ -x = lit := by
      constructor <;> rintro rfl <;> simp
    simp only
    rw [herase, List.mem_append, List.mem_cons, hxlit, hiff x hx]
    have hcases : (-x ∈ a.clause.eraseIdx i ∨ -x = lit) ∨ x ∈ erased
        ↔ x = u ∨ a.seen x.vidx = true ∧ (s.var x).level < s.level := by
      rw [mem_or_mem_eraseIdx hlit, hold]
    have hup (h : x = u ∨ a.seen x.vidx = true ∧ (s.var x).level < s.level) :
        x = u ∨ a'.seen x.vidx = true ∧ (s.var x).level < s.level :=
      h.imp_right (fun h => ⟨hmono x hx h.1, h.2⟩)
    constructor
    · rintro ((hmem | ⟨hxseen, -, hlt⟩) | hmem | hmem)
      · exact hup (hcases.mp (Or.inl (Or.inl hmem)))
      · exact Or.inr ⟨hxseen, hlt⟩
      · exact hup (hcases.mp (Or.inl (Or.inr hmem)))
      · exact hup (hcases.mp (Or.inr hmem))
    · have hdown (h : x = u ∨ a.seen x.vidx = true ∧ (s.var x).level < s.level) :=
        hcases.mpr h
      rintro (hxu | ⟨hxseen, hlt⟩)
      · obtain (hmem | hmem) | hmem := hdown (Or.inl hxu)
        · exact Or.inl (Or.inl hmem)
        · exact Or.inr (Or.inl hmem)
        · exact Or.inr (Or.inr hmem)
      · cases hs : a.seen x.vidx with
        | true =>
            obtain (hmem | hmem) | hmem := hdown (Or.inr ⟨hs, hlt⟩)
            · exact Or.inl (Or.inl hmem)
            · exact Or.inr (Or.inl hmem)
            · exact Or.inr (Or.inr hmem)
        | false => exact Or.inl (Or.inr ⟨hxseen, rfl, hlt⟩)
  · intro k hk
    simp only [herase] at hk
    obtain hk | hk := List.mem_append.mp hk
    · exact hinv.clause_false k (List.mem_of_mem_eraseIdx hk)
    · exact hnew_false k hk
  · intro k hk
    simp only [herase] at hk
    rw [List.take_append_of_le_length (by rw [List.length_eraseIdx_of_lt hi]; omega),
      List.take_eraseIdx_eq_take_of_le _ _ _ le_rfl] at hk
    exact hinv.kept k hk

/-- The second loop ends when the clause contains no auxiliary literal any more. -/
theorem AuxInv.auxLoop (h : s.Inv) {done : List Lit} {u : Lit} (hu : u ∈ s.trail)
    (hstop : e.isAux u = false ∨ (s.var u).reason = none) (n : Nat) {erased : List Lit} {i : Nat}
    {a : Analysis} (hinv : s.AuxInv e conflict done u erased i a) (hi : i ≤ a.clause.length)
    (hn : a.clause.length - i + s.unseen a < n) :
  ∃ a' erased', s.auxLoop e n i a = some a'
    ∧ s.AuxInv e conflict done u erased' a'.clause.length a'
  := by
  induction n generalizing erased i a with
  | zero => exact absurd hn (Nat.not_lt_zero _)
  | succ n ih =>
      rw [Search.auxLoop]
      cases hlit : a.clause[i]? with
      | none =>
          rw [List.getElem?_eq_none_iff] at hlit
          obtain rfl : i = a.clause.length := le_antisymm hi hlit
          exact ⟨a, erased, rfl, hinv⟩
      | some lit =>
          obtain ⟨hlt, hget⟩ := List.getElem?_eq_some_iff.mp hlit
          have hfalse := hinv.clause_false lit (List.mem_of_getElem? hlit)
          simp only
          by_cases haux : e.isAux lit = true
          · rw [if_pos haux]
            have hexplored {a' : Analysis}
                (h' : s.Explored conflict (fun x => x = -lit ∨ (x ∈ done ∨ x ∈ erased)) a') :
                s.Explored conflict (fun y => y ∈ done ∨ y ∈ -lit :: erased) a' := by
              have heq : (fun x => x = -lit ∨ (x ∈ done ∨ x ∈ erased))
                  = (fun y => y ∈ done ∨ y ∈ -lit :: erased) := by
                funext x
                rw [List.mem_cons, or_left_comm]
              rwa [← heq]
            cases hr : (s.var lit).reason with
            | none =>
                have hinv' := hinv.erase hlit haux (List.append_nil a.clause).symm (by simp)
                  (by simp_all) (fun _ _ hx => hx) (fun _ _ _ hx => hx)
                  (hexplored ⟨hinv.explored.of_conflict, ?_, ?_⟩) hinv.seen
                · apply ih hinv'
                  · simp only [List.length_eraseIdx_of_lt hlt]
                    omega
                  · simp only [List.length_eraseIdx_of_lt hlt]
                    change a.clause.length - 1 - i + s.unseen a < n
                    omega
                · rintro y hy (rfl | hE) r hyr
                  · rw [var_neg, hr] at hyr
                    cases hyr
                  · exact hinv.explored.of_reason y hy hE r hyr
                · intro x hx hxseen
                  exact (hinv.explored.traced x hx hxseen).mono (fun _ _ hE => Or.inr hE)
            | some r =>
                have hreason : (s.var (-lit)).reason = some r := by rw [var_neg, hr]
                have hclause := (hinv.clause (-lit) hfalse).mp
                  (Or.inl (by rw [Lit.neg_neg]; exact List.mem_of_getElem? hlit))
                have hlower : a.seen (-lit).vidx = true ∧ (s.var (-lit)).level < s.level := by
                  apply hclause.resolve_left
                  rintro rfl
                  obtain hu | hu := hstop
                  · rw [isAux_neg, haux] at hu
                    cases hu
                  · rw [hreason] at hu
                    cases hu
                have hnot := h.neg_not_mem_reason hfalse hreason
                have hcall := analyzeReason_neg (s := s) hlower.1 hnot
                rw [Lit.neg_neg] at hcall
                simp only
                rw [hcall]
                have hgrows := h.analyzeReason a (some (-lit))
                  (fun (k : Lit) (hk : k ∈ r) hne => (h.reason_false hfalse hreason hk
                    (fun heq => hne (congrArg some heq))).1)
                have hmono {x : Lit} (hx : x ∈ s.trail) (hxseen : a.seen x.vidx = true) :=
                  (hgrows.seen x hx).mpr (Or.inl hxseen)
                obtain ⟨new, hnew, hnew_false, hiff⟩ := hgrows.clause
                have hinv' := hinv.erase hlit haux hnew hnew_false hiff (fun x hx => hmono hx)
                  ?_ (hexplored (hinv.explored.expand hfalse hlower.1 hreason hgrows))
                  (hmono hu hinv.seen)
                · have hlen := congrArg List.length hnew
                  rw [List.length_append] at hlen
                  have herase := List.length_eraseIdx_of_lt (l := (s.analyzeReason a
                    (some (-lit)) r).clause) (i := i) (by omega)
                  have hsize := hgrows.size
                  apply ih hinv'
                  · simp only [herase]
                    omega
                  · simp only [herase]
                    change (s.analyzeReason a (some (-lit)) r).clause.length - 1 - i
                      + s.unseen (s.analyzeReason a (some (-lit)) r) < n
                    omega
                · intro y hy hlevel hyseen
                  obtain hyseen | ⟨⟨hmem, hne⟩, -⟩ := (hgrows.seen y hy).mp hyseen
                  · exact hyseen
                  · have hle := (h.reason_false hfalse hreason hmem
                      (fun heq => hne (congrArg some heq))).2
                    rw [var_neg] at hle
                    omega
          · rw [if_neg haux]
            refine ih (?_ : s.AuxInv e conflict done u erased (i + 1) a) hlt (by omega)
            refine ⟨hinv.explored, hinv.erased_aux, hinv.visited, hinv.clause, hinv.clause_false,
              ?_, hinv.seen⟩
            intro k hk
            rw [List.take_add_one, hlit, Option.toList_some, List.mem_append,
              List.mem_singleton] at hk
            obtain hk | rfl := hk
            · exact hinv.kept k hk
            · simpa using haux

end Search

end Cadical
