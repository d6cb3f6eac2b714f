import IgnoreGates.Cadical.Backjump

/-!
# The conflict level

`find_conflict_level` moves the two literals on the highest levels to the front of the
conflict and watches them.  If the conflict has only one literal on its highest level, the
clause drives this literal; otherwise both watched literals lie on the conflict level.
-/

namespace Cadical

open Logic

namespace Cdcl

variable {s : Cdcl} {chrono c res i : Nat} {pre t : List Lit} {a b : Lit}

/-! ### The literal on the highest level -/

/-- No literal is on a higher level than the first one, or a literal with this property has been
found. -/
theorem highestLoop_spec (rest : List Lit) (hres : ∀ k ∈ rest, (s.var k).level ≤ res)
    (j position level : Nat) :
  (s.highestLoop res rest j position level = position ∧ ∀ k ∈ rest, (s.var k).level ≤ level)
    ∨ ∃ q b, rest[q]? = some b ∧ s.highestLoop res rest j position level = j + q
      ∧ level < (s.var b).level ∧ ∀ k ∈ rest, (s.var k).level ≤ (s.var b).level
  := by
  induction rest generalizing j position level with
  | nil => exact Or.inl ⟨rfl, nofun⟩
  | cons other rest ih =>
      have hrest := ih (fun k hk => hres k (List.mem_cons_of_mem other hk))
      rw [highestLoop]
      split
      · next hle =>
          obtain ⟨heq, hall⟩ | ⟨q, b, hq, heq, hlt, hall⟩ := hrest (j + 1) position level
          · left
            refine ⟨heq, ?_⟩
            intro k hk
            obtain rfl | hk := List.mem_cons.mp hk
            · exact hle
            · exact hall k hk
          · right
            refine ⟨q + 1, b, hq, heq.trans (by omega), hlt, ?_⟩
            intro k hk
            obtain rfl | hk := List.mem_cons.mp hk
            · exact hle.trans hlt.le
            · exact hall k hk
      · next hlt =>
          have hlt := Nat.not_le.mp hlt
          right
          split
          · next heq =>
              refine ⟨0, other, rfl, rfl, hlt, ?_⟩
              intro k hk
              rw [heq]
              exact hres k hk
          · obtain ⟨heq, hall⟩ | ⟨q, b, hq, heq, hblt, hall⟩ := hrest (j + 1) j (s.var other).level
            · refine ⟨0, other, rfl, heq, hlt, ?_⟩
              intro k hk
              obtain rfl | hk := List.mem_cons.mp hk
              · exact le_rfl
              · exact hall k hk
            · refine ⟨q + 1, b, hq, heq.trans (by omega), hlt.trans hblt, ?_⟩
              intro k hk
              obtain rfl | hk := List.mem_cons.mp hk
              · exact hblt.le
              · exact hall k hk

/-! ### Moving a literal to the front -/

variable {q : Nat}

theorem set_append_cons (l : List Lit) (b' : Lit) :
  ((pre ++ a :: l).set (pre.length + 1 + q) b').set pre.length b = pre ++ b :: l.set q b'
  := by
  rw [List.set_append_right _ _ (by omega), List.set_append_right _ _ le_rfl, Nat.sub_self,
    show pre.length + 1 + q - pre.length = q + 1 by omega, List.set_cons_succ, List.set_cons_zero]

theorem perm_set_cons (hq : t[q]? = some b) :
  (b :: t.set q a).Perm (a :: t)
  := by
  obtain ⟨hlt, rfl⟩ := List.getElem?_eq_some_iff.mp hq
  calc t[q] :: t.set q a
    _ |>.Perm (t[q] :: a :: t.eraseIdx q) := (List.set_perm_cons_eraseIdx hlt a).cons _
    _ |>.Perm (a :: t[q] :: t.eraseIdx q) := List.Perm.swap _ _ _
    _ |>.Perm (a :: t) := (List.getElem_cons_eraseIdx_perm hlt).cons a

/-- The other watched literal, when the literal that is moved has not been watched. -/
theorem exists_otherWatch (hpre : pre.length < 2) (hq : t[q]? = some b)
    (htwo : 2 ≤ pre.length + 1 + q) (hnodup : (pre ++ a :: t).Nodup) :
  ∃ o ∈ pre ++ a :: t, (∀ k, k ∈ (pre ++ a :: t).take 2 ↔ k = a ∨ k = o)
    ∧ (∀ k, k ∈ (pre ++ b :: t.set q a).take 2 ↔ k = b ∨ k = o)
    ∧ (pre ++ b :: t.set q a).getD (1 - pre.length) a = o ∧ o ≠ a ∧ o ≠ b
  := by
  have hbt : b ∈ t := List.mem_of_getElem? hq
  obtain _ | ⟨z, _ | ⟨y, pre⟩⟩ := pre
  · obtain _ | ⟨o, t⟩ := t
    · cases hbt
    · obtain _ | q := q
      · exact absurd htwo (by decide)
      · rw [List.getElem?_cons_succ] at hq
        have hbt : b ∈ t := List.mem_of_getElem? hq
        rw [List.nil_append, List.nodup_cons, List.nodup_cons] at hnodup
        refine ⟨o, by simp, by simp, by simp, rfl, ?_, ?_⟩
        · rintro rfl
          exact hnodup.1 List.mem_cons_self
        · rintro rfl
          exact hnodup.2.1 hbt
  · rw [List.singleton_append, List.nodup_cons] at hnodup
    refine ⟨z, by simp, by simp [or_comm], by simp [or_comm], rfl, ?_, ?_⟩
    · rintro rfl
      exact hnodup.1 List.mem_cons_self
    · rintro rfl
      exact hnodup.1 (List.mem_cons_of_mem a hbt)
  · exact absurd hpre (by simp)

theorem SettledAt.setClause_of_ne {c' n : Nat} {ok : Lit → Prop} (h : s.SettledAt c' n ok)
    (hne : c' ≠ c) (d : ClauseData) :
  (s.setClause c d).SettledAt c' n ok
  := by
  have hlits : (s.setClause c d).lits c' = s.lits c' := by
    rw [lits_setClause, if_neg hne]
  have hclause : (s.setClause c d).clauses c' = s.clauses c' := Function.update_of_ne hne _ _
  intro hgarbage k hk hneg
  rw [hclause] at hgarbage
  rw [Cdcl.watched, hlits] at hk
  obtain ⟨x, hx, hspec⟩ := h hgarbage k hk hneg
  exact ⟨x, hlits ▸ hx, hspec⟩

/-- The literals of the false clause in another order, which are watched by `wtab`. -/
theorem Falsified.setLits (h : s.Falsified chrono c) {new : List Lit}
    (hperm : new.Perm (s.lits c)) {wtab : Lit → List Watch}
    (hwatches : (s.setLits c new).WfWatches wtab) :
  { s.setLits c new with wtab := wtab }.Falsified chrono c
  where
    clauses := (h.clauses.setClause (d := { s.clauses c with literals := new }) hperm
      (h.clauses.pos c h.lt)).congr rfl rfl rfl
    trail := (h.trail.setClause (d := { s.clauses c with literals := new }) hperm).congr wtab
      s.conflict
    watches := hwatches.congr rfl rfl
    levels := fun l hl c' hc' hne => (h.levels l hl c' hc' hne).setClause_of_ne hne _
    lt := h.lt
    false_ := fun k hk => h.false_ k ((mem_lits_setClause hperm).mp hk)

/-- The same trail, and the clauses have the same literals. -/
structure Reorders (s s' : Cdcl) : Prop where
  extends_ : s.Extends s'
  trail : s'.trail = s.trail
  vtab : s'.vtab = s.vtab
  conflict : s'.conflict = s.conflict

theorem Reorders.refl (s : Cdcl) :
  s.Reorders s
  := ⟨Extends.refl s, rfl, rfl, rfl⟩

theorem Reorders.trans {s' s'' : Cdcl} (h : s.Reorders s') (h' : s'.Reorders s'') :
  s.Reorders s''
  := ⟨h.extends_.trans h'.extends_, h'.trail.trans h.trail, h'.vtab.trans h.vtab,
    h'.conflict.trans h.conflict⟩

theorem Reorders.var {s' : Cdcl} (h : s.Reorders s') (x : Lit) :
  s'.var x = s.var x
  := congrFun h.vtab x.vidx

theorem reorders_setLits {new : List Lit} (hperm : new.Perm (s.lits c))
    (wtab : Lit → List Watch) :
  s.Reorders { s.setLits c new with wtab := wtab }
  := by
  have hextends := extends_setLits hperm
  exact ⟨⟨rfl, rfl, hextends.lits, hextends.redundant, hextends.garbage, rfl, rfl, rfl, le_rfl,
    ⟨[], (List.append_nil _).symm, nofun⟩, fun _ _ => rfl,
    fun P hP hs => ⟨(hextends.holds P hP hs).clauses, hs.root, hs.unsat⟩⟩, rfl, rfl, rfl⟩

/-- The literal on the highest level among the last ones is moved to the position. -/
theorem Falsified.moveHighest (h : s.Falsified chrono c) (pre : List Lit) (hpre : pre.length < 2)
    (hlits : s.lits c = pre ++ a :: t) (hres : ∀ k ∈ t, (s.var k).level ≤ res) :
  s.Reorders (s.moveHighest c res pre.length)
    ∧ (s.moveHighest c res pre.length).Falsified chrono c
    ∧ ∃ b t', (s.moveHighest c res pre.length).lits c = pre ++ b :: t'
      ∧ (b :: t').Perm (a :: t) ∧ ∀ k ∈ t', (s.var k).level ≤ (s.var b).level
  := by
  have hget : (s.lits c)[pre.length]? = some a := by
    rw [hlits, List.getElem?_append_right le_rfl, Nat.sub_self, List.getElem?_cons_zero]
  have hdrop : (s.lits c).drop (pre.length + 1) = t := by
    rw [hlits, List.drop_append, List.drop_eq_nil_of_le (Nat.le_succ _), List.nil_append,
      Nat.add_sub_cancel_left, List.drop_one, List.tail_cons]
  have hnodup : (pre ++ a :: t).Nodup := hlits ▸ h.clauses.nodup c h.lt
  rw [Cdcl.moveHighest, hget, hdrop]
  simp only
  obtain ⟨heq, hall⟩ | ⟨q, b, hq, heq, hlt, hall⟩ :=
    highestLoop_spec t hres (pre.length + 1) pre.length (s.var a).level
  · rw [if_pos heq]
    exact ⟨Reorders.refl s, h, a, t, hlits, List.Perm.refl _, hall⟩
  · have hb : (pre ++ a :: t).getD (pre.length + 1 + q) a = b := by
      rw [List.getD_append_right _ _ _ _ (by omega),
        show pre.length + 1 + q - pre.length = q + 1 by omega, List.getD_cons_succ,
        List.getD_eq_getElem?_getD, hq]
      rfl
    rw [heq, if_neg (by omega), hlits, hb, set_append_cons]
    have hperm := perm_set_cons (a := a) hq
    have hperm' : (pre ++ b :: t.set q a).Perm (s.lits c) := by
      rw [hlits]
      exact hperm.append_left pre
    have hlevel : ∀ k ∈ t.set q a, (s.var k).level ≤ (s.var b).level := by
      intro k hk
      obtain hk | rfl := List.mem_or_eq_of_mem_set hk
      · exact hall k hk
      · exact hlt.le
    have hself : (s.setLits c (pre ++ b :: t.set q a)).lits c = pre ++ b :: t.set q a := by
      rw [Cdcl.setLits, lits_setClause, if_pos rfl]
    split
    · next htwo =>
        obtain ⟨o, hmem, hold, hnew, hother, hoa, hob⟩ := exists_otherWatch hpre hq htwo hnodup
        have hba : b ≠ a := by
          rintro rfl
          rw [List.nodup_append', List.nodup_cons] at hnodup
          exact hnodup.2.1.1 (List.mem_of_getElem? hq)
        have hwatched : ∀ k, k ∈ (pre ++ b :: t.set q a).take 2
            ↔ k ∈ s.watched c ∧ k ≠ a ∨ k = b := by
          intro k
          rw [hnew, Cdcl.watched, hlits, hold]
          constructor
          · rintro (rfl | rfl)
            · exact Or.inr rfl
            · exact Or.inl ⟨Or.inr rfl, hoa⟩
          · rintro (⟨rfl | rfl, hne⟩ | rfl)
            · exact absurd rfl hne
            · exact Or.inr rfl
            · exact Or.inl rfl
        have hwatches := h.watches.move a b ((s.wtab a).filter (fun w => w.clause ≠ c))
          { s.clauses c with literals := pre ++ b :: t.set q a }
          (by simp) ((h.watches.nodup a).sublist (List.filter_sublist.map Watch.clause)) h.lt hperm'
          id hwatched
          (by
            rw [Cdcl.watched, hlits, hold]
            rintro (heq | heq)
            · exact hba heq
            · exact hob heq.symm)
          hba ⟨hlits ▸ hmem, hob⟩
        rw [hother]
        have hwtab : (((s.removeWatch a c).setLits c (pre ++ b :: t.set q a)).watchLiteral b o
            c) = { s.setLits c (pre ++ b :: t.set q a) with
              wtab := Function.update (Function.update s.wtab a
                ((s.wtab a).filter (fun w => w.clause ≠ c))) b
                (s.wtab b ++ [⟨c, o, (pre ++ b :: t.set q a).length⟩]) } := by
          rw [watchLiteral, setWatches]
          have hlength : ((s.removeWatch a c).setLits c (pre ++ b :: t.set q a)).lits c
              = pre ++ b :: t.set q a := hself
          have hwb : ((s.removeWatch a c).setLits c (pre ++ b :: t.set q a)).wtab b
              = s.wtab b := Function.update_of_ne hba _ _
          rw [hlength, hwb]
          rfl
        rw [hwtab]
        exact ⟨reorders_setLits hperm' _, h.setLits hperm' hwatches, b, t.set q a, hself, hperm,
          hlevel⟩
    · next hone =>
        obtain rfl : pre = [] := List.eq_nil_of_length_eq_zero (by omega)
        obtain rfl : q = 0 := by simp only [List.length_nil] at hone; omega
        obtain ⟨y, t, rfl⟩ : ∃ y t', t = y :: t' :=
          List.exists_cons_of_length_pos (List.getElem?_eq_some_iff.mp hq).1
        obtain rfl : y = b := Option.some_injective _ hq
        have hwatches : (s.setLits c ([] ++ y :: (y :: t).set 0 a)).WfWatches s.wtab := by
          apply h.watches.setClause
            (d := { s.clauses c with literals := [] ++ y :: (y :: t).set 0 a }) hperm' id
          intro k
          rw [Cdcl.watched, hlits]
          simp [or_comm]
        exact ⟨reorders_setLits hperm' s.wtab, h.setLits hperm' hwatches, y, _, hself, hperm,
          hlevel⟩

/-- The two literals on the highest levels are at the front. -/
theorem Falsified.moveHighest_twice (h : s.Falsified chrono c)
    (hres : ∀ k ∈ s.lits c, (s.var k).level ≤ res) :
  s.Reorders ((s.moveHighest c res 0).moveHighest c res 1)
    ∧ ((s.moveHighest c res 0).moveHighest c res 1).Falsified chrono c
    ∧ ∃ b₀ b₁ rest, ((s.moveHighest c res 0).moveHighest c res 1).lits c = b₀ :: b₁ :: rest
      ∧ (s.var b₁).level ≤ (s.var b₀).level ∧ ∀ k ∈ rest, (s.var k).level ≤ (s.var b₁).level
  := by
  obtain ⟨a, t, ha⟩ := List.exists_cons_of_length_pos
    (Nat.lt_of_lt_of_le Nat.two_pos (h.clauses.length c h.lt))
  obtain ⟨hsame, hfalse, b₀, t', hlits, hperm, hle⟩ := h.moveHighest [] Nat.two_pos ha
    (fun k hk => hres k (ha ▸ List.mem_cons_of_mem a hk))
  simp only [List.nil_append, List.length_nil] at hsame hfalse hlits
  obtain ⟨a', t', rfl⟩ : ∃ a' t'', t' = a' :: t'' := by
    apply List.exists_cons_of_length_pos
    have hlength := hfalse.clauses.length c hfalse.lt
    rw [hlits, List.length_cons] at hlength
    exact Nat.le_of_succ_le_succ hlength
  obtain ⟨hsame', hfalse', b₁, rest, hlits', hperm', hle'⟩ := hfalse.moveHighest [b₀]
    Nat.one_lt_two hlits (fun k hk => by
      rw [hsame.var]
      apply hres k
      rw [ha]
      exact hperm.subset (List.mem_cons_of_mem b₀ (List.mem_cons_of_mem a' hk)))
  simp only [List.singleton_append, List.length_singleton] at hsame' hfalse' hlits'
  refine ⟨hsame.trans hsame', hfalse', b₀, b₁, rest, hlits', ?_, ?_⟩
  · exact hle b₁ (hperm'.subset List.mem_cons_self)
  · intro k hk
    have hkle := hle' k hk
    rwa [hsame.var, hsame.var] at hkle

/-- The conflict drives the only literal on the conflict level, or both watches are on it. -/
theorem Falsified.findConflictLevel (h : s.Falsified chrono c) :
  s.Reorders (s.findConflictLevel c).1 ∧ (s.findConflictLevel c).1.Falsified chrono c
    ∧ ((∃ x jump, (s.findConflictLevel c).2.2 = some x
        ∧ (s.var x).level = (s.findConflictLevel c).2.1
        ∧ (s.findConflictLevel c).1.Driving c x jump)
      ∨ (s.findConflictLevel c).2.2 = none
        ∧ (∀ k ∈ s.lits c, (s.var k).level ≤ (s.findConflictLevel c).2.1)
        ∧ ∀ k ∈ (s.findConflictLevel c).1.watched c,
          (s.var k).level = (s.findConflictLevel c).2.1)
  := by
  have hlevel : ∀ k ∈ s.lits c, (s.toSearch.var k).level ≤ s.toSearch.level := by
    intro k hk
    rw [← Search.var_neg]
    exact h.trail.search.level_le _ (h.false_ k hk)
  obtain ⟨hres, hcases⟩ := Search.findConflictLevel_spec (h.clauses.length c h.lt) hlevel
  have hcalls : s.findConflictLevel c
      = ((s.moveHighest c (s.toSearch.findConflictLevel (s.lits c)).1 0).moveHighest c
          (s.toSearch.findConflictLevel (s.lits c)).1 1,
        s.toSearch.findConflictLevel (s.lits c)) := rfl
  rw [hcalls]
  generalize s.toSearch.findConflictLevel (s.lits c) = r at hres hcases
  obtain ⟨res, forced⟩ := r
  obtain ⟨hsame, hfalse, b₀, b₁, rest, hlits, hle, hrest⟩ := h.moveHighest_twice hres
  refine ⟨hsame, hfalse, ?_⟩
  generalize (s.moveHighest c res 0).moveHighest c res 1 = s' at hsame hfalse hlits
  have hperm : (b₀ :: b₁ :: rest).Perm (s.lits c) := hlits ▸ hsame.extends_.lits c
  have hnodup := hfalse.clauses.nodup c hfalse.lt
  rw [hlits] at hnodup
  have hmax : ∀ k ∈ b₀ :: b₁ :: rest, (s.var k).level ≤ (s.var b₀).level := by
    intro k hk
    obtain rfl | hk := List.mem_cons.mp hk
    · exact le_rfl
    · obtain rfl | hk := List.mem_cons.mp hk
      · exact hle
      · exact (hrest k hk).trans hle
  have hwatched : s'.watched c = [b₀, b₁] := by
    rw [Cdcl.watched, hlits]
    rfl
  obtain ⟨x, hx, rfl, hxlevel, hunique⟩ | ⟨rfl, htwo⟩ := hcases
  · left
    simp only at hxlevel hunique ⊢
    have hxb : x = b₀ := by
      by_contra hne
      have hlt : (s.var b₀).level < res := hunique b₀ (hperm.subset List.mem_cons_self) (Ne.symm hne)
      have hge : res ≤ (s.var b₀).level := hxlevel ▸ hmax x (hperm.symm.subset hx)
      omega
    subst hxb
    have hne : b₁ ≠ x := fun heq => (List.nodup_cons.mp hnodup).1 (heq ▸ List.mem_cons_self)
    refine ⟨x, (s.var b₁).level, rfl, hxlevel, ?_, ?_, ?_, ?_, ?_⟩
    · rw [hlits]
      exact List.mem_cons_self
    · rw [hsame.var]
      have hlt := hunique b₁ (hperm.subset (List.mem_cons_of_mem x List.mem_cons_self)) hne
      exact hlt.trans_le hxlevel.ge
    · intro k hk hkx
      rw [hlits, List.mem_cons, List.mem_cons] at hk
      rw [hsame.var]
      obtain rfl | hk := hk.resolve_left hkx
      · exact le_rfl
      · exact hrest k hk
    · intro k hk
      rw [hwatched, List.mem_cons, List.mem_singleton] at hk
      rw [hsame.var]
      exact hk.imp_right (fun heq => by rw [heq])
    · refine ⟨b₁, ?_, hne, by rw [hsame.var]⟩
      rw [hlits]
      exact List.mem_cons_of_mem x List.mem_cons_self
  · right
    refine ⟨rfl, hres, ?_⟩
    simp only at hres htwo ⊢
    rw [← hperm.countP_eq] at htwo
    have hb₁ : (s.var b₁).level = res := by
      by_contra hne
      have hlt : (s.var b₁).level < res := lt_of_le_of_ne
        (hres b₁ (hperm.subset (List.mem_cons_of_mem b₀ List.mem_cons_self))) hne
      have hnone : (b₁ :: rest).countP (fun k => (s.var k).level = res) = 0 := by
        rw [List.countP_eq_zero]
        intro k hk
        rw [decide_eq_true_eq]
        obtain rfl | hk := List.mem_cons.mp hk
        · exact hne
        · have hkle := hrest k hk
          omega
      have hcount : (b₀ :: b₁ :: rest).countP (fun k => (s.var k).level = res) ≤ 1 := by
        rw [List.countP_cons, hnone]
        split <;> omega
      exact absurd (htwo.trans hcount) (by decide)
    have hb₀ : (s.var b₀).level = res :=
      le_antisymm (hres b₀ (hperm.subset List.mem_cons_self)) (hb₁ ▸ hle)
    intro k hk
    rw [hwatched, List.mem_cons, List.mem_singleton] at hk
    obtain rfl | rfl := hk
    · exact hb₀
    · exact hb₁

end Cdcl

end Cadical
