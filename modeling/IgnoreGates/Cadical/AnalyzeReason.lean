import IgnoreGates.Cadical.Analyze

/-!
# Marking the literals of a reason

What `analyze_reason` does to the state of the analysis, in terms of the literals of the
trail that it marks as seen: those below the current level are appended to the clause, and
those on the current level are counted in `open`.
-/

namespace Cadical

namespace Search

variable {s : Search}

theorem Inv.eq_of_vidx (h : s.Inv) {x y : Lit} (hx : x ∈ s.trail) (hy : y ∈ s.trail)
    (hvidx : x.vidx = y.vidx) :
  x = y
  := List.inj_on_of_nodup_map h.nodup hx hy hvidx

/-- Counting after one entry has been added to what is counted. -/
theorem countP_eq_add_one {α : Type*} {p q : α → Bool} {l : List α} {a : α} (hl : l.Nodup)
    (ha : a ∈ l) (hp : p a = false) (hq : q a = true) (hpq : ∀ b ∈ l, b ≠ a → q b = p b) :
  l.countP q = l.countP p + 1
  := by
  induction l with
  | nil => cases ha
  | cons b l ih =>
      obtain ⟨hb, hl⟩ := List.nodup_cons.mp hl
      rw [List.countP_cons, List.countP_cons]
      obtain rfl | ha := List.mem_cons.mp ha
      · have hrest : l.countP q = l.countP p := by
          apply List.countP_congr
          intro c hc
          rw [hpq c (List.mem_cons_of_mem a hc) (ne_of_mem_of_not_mem hc hb)]
        rw [hp, hq, hrest]
        simp
      · rw [ih hl ha (fun c hc => hpq c (List.mem_cons_of_mem b hc)),
          hpq b List.mem_cons_self (ne_of_mem_of_not_mem ha hb).symm]
        omega

/-- The number of seen literals on the current level. -/
def openIn (s : Search) (a : Analysis) (l : List Lit) : Nat :=
  l.countP (fun x => a.seen x.vidx ∧ (s.var x).level = s.level)

/-- The number of literals that have not been seen. -/
def unseen (s : Search) (a : Analysis) : Nat :=
  s.trail.countP (fun x => ¬ a.seen x.vidx)

theorem openIn_pos {a : Analysis} {l : List Lit} :
  0 < s.openIn a l ↔ ∃ x ∈ l, a.seen x.vidx = true ∧ (s.var x).level = s.level
  := by
  simp only [openIn, List.countP_pos_iff, decide_eq_true_eq]

/-- From `a` to `a'`, the literals of the trail with the property `hit` have been seen. -/
structure Grows (s : Search) (hit : Lit → Prop) (a a' : Analysis) : Prop where
  seen : ∀ x ∈ s.trail, a'.seen x.vidx = true
    ↔ a.seen x.vidx = true ∨ hit x ∧ 0 < (s.var x).level
  clause : ∃ new, a'.clause = a.clause ++ new ∧ (∀ k ∈ new, -k ∈ s.trail)
    ∧ ∀ x ∈ s.trail, -x ∈ new
      ↔ a'.seen x.vidx = true ∧ a.seen x.vidx = false ∧ (s.var x).level < s.level
  open_ : ∀ l, l ⊆ s.trail → l.Nodup →
    (∀ x ∈ s.trail, hit x → (s.var x).level = s.level → x ∈ l) →
    a'.open_ - s.openIn a' l = a.open_ - s.openIn a l
  size : a'.clause.length + s.unseen a' ≤ a.clause.length + s.unseen a

theorem Grows.refl (a : Analysis) :
  s.Grows (fun _ => False) a a
  where
    seen := by simp
    clause := ⟨[], by simp, by simp, by simp_all⟩
    open_ := fun _ _ _ _ => rfl
    size := le_rfl

theorem Grows.congr {hit hit' : Lit → Prop} {a a' : Analysis} (h : s.Grows hit a a')
    (heq : ∀ x, hit x ↔ hit' x) :
  s.Grows hit' a a'
  := by
  have : hit = hit' := funext fun x => propext (heq x)
  rwa [← this]

theorem Grows.trans {hit hit' : Lit → Prop} {a b c : Analysis} (h : s.Grows hit a b)
    (h' : s.Grows hit' b c) :
  s.Grows (fun x => hit x ∨ hit' x) a c
  := by
  refine ⟨?_, ?_, ?_, h'.size.trans h.size⟩
  · intro x hx
    rw [h'.seen x hx, h.seen x hx]
    tauto
  · obtain ⟨new, hnew, hmem, hiff⟩ := h.clause
    obtain ⟨new', hnew', hmem', hiff'⟩ := h'.clause
    refine ⟨new ++ new', by rw [hnew', hnew, List.append_assoc], ?_, ?_⟩
    · intro k hk
      obtain hk | hk := List.mem_append.mp hk
      · exact hmem k hk
      · exact hmem' k hk
    · intro x hx
      have hb := h.seen x hx
      have hc := h'.seen x hx
      rw [List.mem_append, hiff x hx, hiff' x hx]
      cases ha : a.seen x.vidx <;> cases hbs : b.seen x.vidx <;> cases hcs : c.seen x.vidx <;>
        simp_all
  · intro l hl hnodup hhit
    rw [h'.open_ l hl hnodup (fun x hx hxhit => hhit x hx (Or.inr hxhit)),
      h.open_ l hl hnodup (fun x hx hxhit => hhit x hx (Or.inl hxhit))]

/-- One false literal is analyzed. -/
theorem Inv.analyzeLiteral (h : s.Inv) (a : Analysis) {lit : Lit} (hlit : -lit ∈ s.trail) :
  s.Grows (fun x => x = -lit) a (s.analyzeLiteral a lit)
  := by
  have hsame {x : Lit} (hx : x ∈ s.trail) : x.vidx = lit.vidx ↔ x = -lit := by
    constructor
    · intro hvidx
      exact h.eq_of_vidx hx hlit (hvidx.trans lit.vidx_neg.symm)
    · rintro rfl
      exact lit.vidx_neg
  rw [Search.analyzeLiteral]
  split
  · next hseen =>
      refine ⟨?_, ⟨[], by simp, by simp, by simp_all⟩, fun _ _ _ _ => rfl, le_rfl⟩
      intro x hx
      constructor
      · exact Or.inl
      · rintro (hx | ⟨rfl, -⟩)
        · exact hx
        · rwa [Lit.vidx_neg]
  · next hseen =>
      rw [Bool.not_eq_true] at hseen
      split
      · next hlevel =>
          refine ⟨?_, ⟨[], by simp, by simp, by simp_all⟩, fun _ _ _ _ => rfl, le_rfl⟩
          intro x hx
          constructor
          · exact Or.inl
          · rintro (hx | ⟨rfl, hpos⟩)
            · exact hx
            · rw [var_neg] at hpos
              omega
      · next hlevel =>
          have hupdate {x : Lit} (hx : x ∈ s.trail) :
              Function.update a.seen lit.vidx true x.vidx = true
                ↔ a.seen x.vidx = true ∨ x = -lit := by
            by_cases hvidx : x.vidx = lit.vidx
            · rw [hvidx, Function.update_self]
              simp [(hsame hx).mp hvidx]
            · rw [Function.update_of_ne hvidx]
              simp [mt (hsame hx).mpr hvidx]
          have hkeep {x : Lit} (hx : x ∈ s.trail) (hne : x ≠ -lit) :
              Function.update a.seen lit.vidx true x.vidx = a.seen x.vidx :=
            Function.update_of_ne (mt (hsame hx).mp hne) _ _
          refine ⟨?_, ?_, ?_, ?_⟩
          · intro x hx
            apply (hupdate hx).trans
            apply or_congr_right
            constructor
            · rintro rfl
              rw [var_neg]
              exact ⟨rfl, Nat.pos_of_ne_zero hlevel⟩
            · exact And.left
          · by_cases hlt : (s.var lit).level < s.level
            · refine ⟨[lit], by simp [hlt], by simpa using hlit, ?_⟩
              intro x hx
              have hxlit : -x = lit ↔ x = -lit := by
                constructor <;> rintro rfl <;> simp
              simp only [List.mem_singleton, hxlit, hupdate hx]
              constructor
              · rintro rfl
                rw [var_neg, Lit.vidx_neg]
                exact ⟨Or.inr rfl, hseen, hlt⟩
              · rintro ⟨hx | hx, hnot, -⟩
                · rw [hx] at hnot
                  cases hnot
                · exact hx
            · refine ⟨[], by simp [hlt], by simp, ?_⟩
              intro x hx
              simp only [List.not_mem_nil, false_iff, hupdate hx]
              rintro ⟨hx | rfl, hnot, hxlt⟩
              · rw [hx] at hnot
                cases hnot
              · rw [var_neg] at hxlt
                exact hlt hxlt
          · intro l hl hnodup hhit
            by_cases heq : (s.var lit).level = s.level
            · have hmem := hhit (-lit) hlit rfl (by rwa [var_neg])
              have hcount : s.openIn { a with seen := Function.update a.seen lit.vidx true } l
                  = s.openIn a l + 1 := by
                apply countP_eq_add_one hnodup hmem (a := -lit)
                · simp [hseen]
                · simp only [Lit.vidx_neg, var_neg, Function.update_self, heq]
                  rfl
                · intro x hx hne
                  simp only [hkeep (hl hx) hne]
              simp only [heq, if_true]
              change a.open_ + 1
                - (s.openIn { a with seen := Function.update a.seen lit.vidx true } l : Int) = _
              omega
            · simp only [heq, if_false]
              congr 2
              apply List.countP_congr
              intro x hx
              by_cases hxlit : x = -lit
              · simp [hxlit, heq]
              · simp [hkeep (hl hx) hxlit]
          · have hcount : s.unseen a
                = s.unseen { a with seen := Function.update a.seen lit.vidx true } + 1 := by
              apply countP_eq_add_one h.nodup.of_map hlit
              · simp
              · simp [hseen]
              · intro x hx hne
                simp only [hkeep hx hne]
            have hlength : (if (s.var lit).level < s.level then a.clause ++ [lit] else a.clause).length
                ≤ a.clause.length + 1 := by
              split
              · rw [List.length_append, List.length_singleton]
              · exact Nat.le_succ _
            rw [hcount]
            apply (Nat.add_le_add_right hlength _).trans
            exact (Nat.add_right_comm _ _ _).le

/-- The literals of a reason are analyzed. -/
theorem Inv.analyzeReason (h : s.Inv) (a : Analysis) (lit : Option Lit) {reason : List Lit}
    (hreason : ∀ k ∈ reason, some k ≠ lit → -k ∈ s.trail) :
  s.Grows (fun x => -x ∈ reason ∧ some (-x) ≠ lit) a (s.analyzeReason a lit reason)
  := by
  induction reason generalizing a with
  | nil => exact (Grows.refl a).congr (by simp)
  | cons k reason ih =>
      have hrest := fun a => ih a (fun k' hk' => hreason k' (List.mem_cons_of_mem k hk'))
      rw [Search.analyzeReason, List.foldl_cons]
      by_cases hk : some k ≠ lit
      · rw [if_pos hk]
        apply ((h.analyzeLiteral a (hreason k List.mem_cons_self hk)).trans (hrest _)).congr
        intro x
        have hxk : x = -k ↔ -x = k := by
          constructor <;> rintro rfl <;> simp
        rw [hxk, List.mem_cons]
        constructor
        · rintro (rfl | ⟨hx, hne⟩)
          · exact ⟨Or.inl rfl, hk⟩
          · exact ⟨Or.inr hx, hne⟩
        · rintro ⟨rfl | hx, hne⟩
          · exact Or.inl rfl
          · exact Or.inr ⟨hx, hne⟩
      · rw [if_neg hk]
        apply (hrest a).congr
        intro x
        rw [List.mem_cons]
        constructor
        · rintro ⟨hx, hne⟩
          exact ⟨Or.inr hx, hne⟩
        · rintro ⟨rfl | hx, hne⟩
          · exact absurd hne hk
          · exact ⟨hx, hne⟩

end Search

end Cadical
