import Mathlib.Data.Fintype.Pi
import Mathlib.Data.Fintype.BigOperators
import IgnoreGates.Logic.Definition

/-!
# Clauses over all inputs

A clause that mentions a variable `v` and every variable of a finite set `W`, and no other,
is falsified apart from `v` by one assignment of `W`.  Such clauses define `v` when each
assignment of `W` falsifies one of them.  Hence `2 ^ k` of them with pairwise different
falsifying assignments define `v` exactly when they are as many as the assignments of `W`.
-/

universe u v

namespace Logic

open Literal Assignment

variable {L : Type u} {V : Type v} [Literal L V] [DecidableEq V]

namespace Clause

/-- The clause has, apart from literals of `v`, exactly one literal of each variable in `W`. -/
structure FullOver (v : V) (W : Finset V) (c : Clause L) : Prop where
  mentions : ∀ w ∈ W, Mentions c w
  var_mem : ∀ l ∈ c, var l ≠ v → var l ∈ W
  not_taut : ∀ l ∈ c, neg l ∉ c

/-- The values under which the literals of the clause over `W` are false. -/
def falsifier (W : Finset V) (c : Clause L) : W → Bool :=
  fun w => decide (∃ l ∈ c, var l = w.val ∧ sign l = true)

/-- The falsifying assignment makes the variable of a negative literal true. -/
theorem FullOver.falsifier_eq {v : V} {W : Finset V} {c : Clause L} (h : FullOver v W c) {l : L}
    (hl : l ∈ c) {w : W} (hw : var l = w.val) :
  falsifier W c w = sign l
  := by
  rw [falsifier]
  cases hs : sign l with
  | true =>
      apply decide_eq_true
      exact ⟨l, hl, hw, hs⟩
  | false =>
      apply decide_eq_false
      rintro ⟨k, hk, hvar, hks⟩
      obtain rfl | rfl := eq_or_eq_neg (hvar.trans hw.symm)
      · rw [hs] at hks
        cases hks
      · exact h.not_taut l hl hk

/-- Clauses over `W` with the same falsifying assignment have the same literals over `W`. -/
theorem FullOver.mem_of_falsifier_eq {v : V} {W : Finset V} {c d : Clause L}
    (hc : FullOver v W c) (hd : FullOver v W d) (heq : falsifier W c = falsifier W d) {l : L}
    (hl : l ∈ c) (hv : var l ≠ v) :
  l ∈ d
  := by
  have hw := hc.var_mem l hl hv
  obtain ⟨k, hk, hkw⟩ := hd.mentions (var l) hw
  have hsign : sign l = sign k := by
    rw [← hc.falsifier_eq (w := ⟨var l, hw⟩) hl rfl, ← hd.falsifier_eq (w := ⟨var l, hw⟩) hk hkw,
      heq]
  rw [ext hkw.symm hsign]
  exact hk

/-- Clauses over `W` that are blocked on a literal of `v` have different falsifying
assignments. -/
theorem FullOver.falsifier_ne_of_blocked {o : L} {W : Finset V} {c d : Clause L}
    (hc : FullOver (var o) W c) (hd : FullOver (var o) W d) (ho : o ∈ c) (h : Blocked o c d) :
  falsifier W c ≠ falsifier W d
  := by
  obtain ⟨l, hl, hlo, hld⟩ := h
  intro heq
  by_cases hv : var l = var o
  · obtain rfl | rfl := eq_or_eq_neg hv
    · exact hlo rfl
    · exact hc.not_taut o ho hl
  · exact hd.not_taut l (hc.mem_of_falsifier_eq hd heq hl hv) hld

/-- A clause over `W` is satisfied apart from `v` exactly when the assignment differs from
its falsifying one. -/
theorem FullOver.satOff_iff {v : V} {W : Finset V} {c : Clause L} (h : FullOver v W c)
    (hv : v ∉ W) (σ : Assignment V) :
  SatOff σ v c ↔ (fun w : W => σ w) ≠ falsifier W c
  := by
  constructor
  · rintro ⟨l, hl, hlv, hval⟩ heq
    have hw : σ (var l) = sign l := by
      rw [← h.falsifier_eq (w := ⟨var l, h.var_mem l hl hlv⟩) hl rfl, ← heq]
    rw [value, hw, Bool.xor_self] at hval
    cases hval
  · intro hne
    obtain ⟨w, hw⟩ := Function.ne_iff.mp hne
    obtain ⟨l, hl, hlw⟩ := h.mentions w.val w.prop
    have hlv : var l ≠ v := by
      rintro rfl
      exact hv (hlw ▸ w.prop)
    have hxor : ∀ a b : Bool, a ≠ b → (a ^^ b) = true := by decide
    refine ⟨l, hl, hlv, hxor _ _ ?_⟩
    rw [h.falsifier_eq hl hlw] at hw
    rw [hlw]
    exact hw

end Clause

/-- Clauses over `W` define `v` when every assignment of `W` falsifies one of them. -/
theorem defines_iff_falsifier {v : V} {W : Finset V} (hv : v ∉ W) {cs : List (Clause L)}
    (hcs : ∀ c ∈ cs, Clause.FullOver v W c) :
  Defines {c | c ∈ cs} v ↔ ∀ α : W → Bool, α ∈ cs.map (Clause.falsifier W)
  := by
  apply (defines_iff_satOff (F := {c | c ∈ cs}) (fun c hc => (hcs c hc).not_taut)).trans
  constructor
  · intro h α
    by_contra hα
    let σ : Assignment V := fun w => if hw : w ∈ W then α ⟨w, hw⟩ else false
    have hσ : (fun w : W => σ w) = α := by
      funext w
      exact dif_pos w.prop
    apply h σ
    intro c hc
    apply ((hcs c hc).satOff_iff hv σ).mpr
    rw [hσ]
    rintro rfl
    exact hα (List.mem_map_of_mem hc)
  · intro h σ hσ
    obtain ⟨c, hc, heq⟩ := List.mem_map.mp (h (fun w => σ w))
    exact ((hcs c hc).satOff_iff hv σ).mp (hσ c hc) heq.symm

/-- `2 ^ k` clauses over `W`, where clauses with the same falsifying assignment are equal,
define `v` exactly when they are distinct and `W` has `k` variables. -/
theorem defines_iff_nodup {v : V} {W : Finset V} (hv : v ∉ W) {cs : List (Clause L)}
    (hcs : ∀ c ∈ cs, Clause.FullOver v W c)
    (hinj : ∀ c ∈ cs, ∀ d ∈ cs, Clause.falsifier W c = Clause.falsifier W d → c = d)
    {k : Nat} (hlen : cs.length = 2 ^ k) (hk : k ≤ W.card) :
  Defines {c | c ∈ cs} v ↔ cs.Nodup ∧ k = W.card
  := by
  rw [defines_iff_falsifier hv hcs]
  have hcard : Fintype.card (W → Bool) = 2 ^ W.card := by simp
  have hmap : (cs.map (Clause.falsifier W)).length = 2 ^ k := by
    rw [List.length_map, hlen]
  constructor
  · intro hall
    have huniv : (cs.map (Clause.falsifier W)).toFinset = Finset.univ := by
      apply Finset.eq_univ_of_forall
      intro α
      exact List.mem_toFinset.mpr (hall α)
    have hle := List.toFinset_card_le (cs.map (Clause.falsifier W))
    rw [huniv, Finset.card_univ, hcard, hmap] at hle
    have hkW : k = W.card := le_antisymm hk ((Nat.pow_le_pow_iff_right Nat.one_lt_two).mp hle)
    refine ⟨?_, hkW⟩
    apply List.Nodup.of_map (Clause.falsifier W)
    have hcount : (cs.map (Clause.falsifier W)).toFinset.card
        = (cs.map (Clause.falsifier W)).length := by
      rw [huniv, Finset.card_univ, hcard, hmap, hkW]
    rw [List.card_toFinset] at hcount
    exact List.dedup_eq_self.mp ((List.dedup_sublist _).eq_of_length hcount)
  · rintro ⟨hnodup, hkW⟩ α
    have huniv : (cs.map (Clause.falsifier W)).toFinset = Finset.univ := by
      apply Finset.eq_univ_of_card
      rw [List.toFinset_card_of_nodup (hnodup.map_on hinj), hmap, hcard, hkW]
    have hα := Finset.mem_univ α
    rw [← huniv] at hα
    exact List.mem_toFinset.mp hα

end Logic
