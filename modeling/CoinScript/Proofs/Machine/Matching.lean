/-
Matching signatures with keys. Signatures match keys if each can be given a key that accepts it, the keys
in the order of the signatures. The machine tries each key once, with the first signature that has none
yet, and never goes back; that decides the question, because a key given to the first signature that it
accepts leaves the most keys to the others.
-/
import CoinScript.Proofs.Machine.Commands
import Mathlib.Data.List.Forall2
import Mathlib.Data.List.Induction
import Mathlib.Data.List.NodupEquivFin
import Mathlib.Order.Fin.Basic

namespace CoinScript

open CoinScript.Action

/-! ## Matchings in order -/

section Matchings

variable {α β : Type} {R : α → β → Prop} {accepts : α → β → Bool} {a : α} {b : β} {as : List α} {bs : List β}

/-- Every element of the first list has one of the second that accepts it, in strictly increasing
order. -/
def OrderedMatching (accepts : α → β → Bool) (as : List α) (bs : List β) : Prop :=
  ∃ assign : Fin as.length → Fin bs.length, StrictMono assign ∧
    ∀ i, accepts (as.get i) (bs.get (assign i)) = true

theorem orderedMatching_iff :
    OrderedMatching accepts as bs ↔ List.SublistForall₂ (fun a b => accepts a b = true) as bs := by
  rw [List.sublistForall₂_iff]
  constructor
  · rintro ⟨assign, hmono, haccepts⟩
    -- the accepting elements form a sublist
    refine ⟨List.ofFn fun i => bs.get (assign i), ?_, ?_⟩
    · rw [List.forall₂_iff_get]
      refine ⟨List.length_ofFn.symm, fun i hi hi' => ?_⟩
      rw [List.get_ofFn]
      exact haccepts ⟨i, hi⟩
    · rw [List.sublist_iff_exists_fin_orderEmbedding_get_eq]
      have hcast : StrictMono (Fin.cast (List.length_ofFn (f := fun i => bs.get (assign i)))) :=
        (Fin.castOrderIso List.length_ofFn).strictMono
      exact ⟨OrderEmbedding.ofStrictMono _ (hmono.comp hcast), fun i => List.get_ofFn _ i⟩
  · rintro ⟨chosen, haccepts, hsub⟩
    obtain ⟨hlen, hget⟩ := List.forall₂_iff_get.1 haccepts
    obtain ⟨place, hplace⟩ := List.sublist_iff_exists_fin_orderEmbedding_get_eq.1 hsub
    refine ⟨fun i => place (Fin.cast hlen i), place.strictMono.comp (Fin.castOrderIso hlen).strictMono, ?_⟩
    intro i
    rw [← hplace]
    exact hget i i.isLt (hlen ▸ i.isLt)

theorem sublistForall₂_of_cons (h : List.SublistForall₂ R (a :: as) bs) : List.SublistForall₂ R as bs := by
  obtain ⟨chosen, haccepts, hsub⟩ := List.sublistForall₂_iff.1 h
  cases haccepts with
  | cons _ hrest => exact List.sublistForall₂_iff.2 ⟨_, hrest, (List.sublist_cons_self _ _).trans hsub⟩

theorem sublistForall₂_cons_cons_of_accepts (h : R a b) :
    List.SublistForall₂ R (a :: as) (b :: bs) ↔ List.SublistForall₂ R as bs := by
  constructor
  · intro hmatch
    cases hmatch with
    | cons _ hrest => exact hrest
    | cons_right hlater => exact sublistForall₂_of_cons hlater
  · exact .cons h

theorem sublistForall₂_cons_cons_of_refuses (h : ¬ R a b) :
    List.SublistForall₂ R (a :: as) (b :: bs) ↔ List.SublistForall₂ R (a :: as) bs := by
  constructor
  · intro hmatch
    cases hmatch with
    | cons haccepts _ => exact absurd haccepts h
    | cons_right hlater => exact hlater
  · exact .cons_right

theorem length_le_of_sublistForall₂ (h : List.SublistForall₂ R as bs) : as.length ≤ bs.length := by
  obtain ⟨chosen, haccepts, hsub⟩ := List.sublistForall₂_iff.1 h
  rw [haccepts.length_eq]
  exact hsub.length_le

end Matchings

namespace Machine

variable {m : Machine} {below : List Bytes}

/-! ## Signatures and keys -/

/-- The signatures that are left when the first of them has been tried with a key. -/
def unmatched (checker : Checker) (code signature key : Bytes) (later : List Bytes) : List Bytes :=
  if checker signature key code then later else signature :: later

/-- The first key is tried with the first signature and then left; that is reported before what follows. -/
theorem run_matchSignatures_cons (checker : Checker) (signature key : Bytes) (later keys : List Bytes)
    (m : Machine) :
    let left := unmatched checker m.scriptCode signature key later
    let after := (if keys.length < left.length then pure false else matchSignatures checker left keys).run m
    (matchSignatures checker (signature :: later) (key :: keys)).run m =
      ⟨after.result, after.state,
        .check ⟨signature, key, m.scriptCode, checker signature key m.scriptCode⟩ :: after.reports⟩ := by
  intro left after
  have hcheck : (checkSignature checker signature key).run m =
      ⟨.ok (checker signature key m.scriptCode), m,
        [.check ⟨signature, key, m.scriptCode, checker signature key m.scriptCode⟩]⟩ := rfl
  rw [matchSignatures, run_bind_ok hcheck]
  rfl

/-- Matching signatures with keys leaves the machine as it is and says whether they match in order. -/
theorem run_matchSignatures (checker : Checker) (signatures keys : List Bytes) (m : Machine) :
    ∃ verdict reports, (matchSignatures checker signatures keys).run m = ⟨.ok verdict, m, reports⟩ ∧
      (verdict = true ↔
        OrderedMatching (fun signature key => checker signature key m.scriptCode) signatures keys) := by
  simp only [orderedMatching_iff]
  induction keys generalizing signatures with
  | nil =>
    cases signatures with
    | nil => exact ⟨true, [], rfl, iff_of_true rfl .nil⟩
    | cons signature later =>
      exact ⟨false, [], rfl, iff_of_false (by decide) fun h => by cases h⟩
  | cons key keys ih =>
    cases signatures with
    | nil => exact ⟨true, [], rfl, iff_of_true rfl .nil⟩
    | cons signature later =>
      have hgreedy : List.SublistForall₂ (fun signature key => checker signature key m.scriptCode = true)
          (signature :: later) (key :: keys) ↔
          List.SublistForall₂ (fun signature key => checker signature key m.scriptCode = true)
            (unmatched checker m.scriptCode signature key later) keys := by
        rw [unmatched]
        by_cases haccepts : checker signature key m.scriptCode = true
        · rw [if_pos haccepts]
          exact sublistForall₂_cons_cons_of_accepts haccepts
        · rw [if_neg haccepts]
          exact sublistForall₂_cons_cons_of_refuses haccepts
      rw [run_matchSignatures_cons, hgreedy]
      split
      · next hfew =>
        refine ⟨false, _, rfl, iff_of_false (by decide) fun h => ?_⟩
        have hlen := length_le_of_sublistForall₂ h
        omega
      · obtain ⟨verdict, reports, hrun, hverdict⟩ := ih (unmatched checker m.scriptCode signature key later)
        rw [hrun]
        exact ⟨verdict, _, rfl, hverdict⟩

/-! ## Taking counts, keys and signatures -/

theorem run_popNumber {bytes : Bytes} {v : Int} (h : m.stack = bytes :: below)
    (hv : Number.decode? bytes = some v) : popNumber.run m = ⟨.ok v, { m with stack := below }, []⟩ := by
  rw [popNumber, run_bind_silent (run_pop_cons h), hv]
  rfl

theorem run_popMany {elements : List Bytes} (h : m.stack = elements.reverse ++ below) :
    (popMany elements.length).run m = ⟨.ok elements, { m with stack := below }, []⟩ := by
  induction elements using List.reverseRecOn generalizing m with
  | nil =>
    have hbelow : m.stack = below := h
    rw [← hbelow]
    rfl
  | append_singleton elements last ih =>
    have htop : m.stack = last :: (elements.reverse ++ below) := by
      rw [h, List.reverse_append]
      rfl
    have hdeeper := ih (m := { m with stack := elements.reverse ++ below }) rfl
    rw [List.length_append, List.length_singleton, popMany, run_bind_silent (run_pop_cons htop),
      run_bind_silent hdeeper]
    rfl

theorem run_popMany_of_few {n : Nat} (h : m.stack.length < n) :
    ∃ m', (popMany n).run m = ⟨.error .stackUnderflow, m', []⟩ := by
  induction n generalizing m with
  | zero => exact absurd h (Nat.not_lt_zero _)
  | succ n ih =>
    cases hstack : m.stack with
    | nil => exact ⟨m, run_bind_error (run_pop_nil hstack)⟩
    | cons element rest =>
      have hfew : ({ m with stack := rest } : Machine).stack.length < n := by
        rw [hstack] at h
        exact Nat.lt_of_succ_lt_succ h
      obtain ⟨m', hdeeper⟩ := ih hfew
      refine ⟨m', ?_⟩
      rw [popMany, run_bind_silent (run_pop_cons hstack), run_bind_error hdeeper]

/-! ## Multisignature checks -/

section Counted

variable {count requiredCount : Bytes} {keys : List Bytes} {required : Nat}

/-- With both counts and the keys taken, what remains is to take the signatures and one element more. -/
theorem run_checkMultisig_counted (checker : Checker)
    (h : m.stack = count :: (keys.reverse ++ requiredCount :: below))
    (hcount : Number.decode? count = some keys.length) (hmax : (keys.length : Int) ≤ maxMultisigKeys)
    (hrequired : Number.decode? requiredCount = some required) (hle : required ≤ keys.length) :
    (checkMultisig checker).run m = (do
      let signatures ← popMany required
      let _ ← pop
      matchSignatures checker signatures keys).run { m with stack := below } := by
  have hkeys := run_popMany (m := { m with stack := keys.reverse ++ requiredCount :: below }) rfl
  have hrequired' := run_popNumber (m := { m with stack := requiredCount :: below }) rfl hrequired
  have hcountOk : (decide (0 ≤ (keys.length : Int)) && decide ((keys.length : Int) ≤ maxMultisigKeys)) = true := by
    simp [hmax]
  have hrequiredOk : (decide (0 ≤ (required : Int)) && decide ((required : Int) ≤ keys.length)) = true := by
    simp [hle]
  rw [checkMultisig, run_bind_silent (run_popNumber h hcount), hcountOk, run_bind_silent (run_require_true _ _),
    Int.toNat_natCast, run_bind_silent hkeys, run_bind_silent hrequired', hrequiredOk,
    run_bind_silent (run_require_true _ _), Int.toNat_natCast]

theorem run_checkMultisig_of_few (checker : Checker)
    (h : m.stack = count :: (keys.reverse ++ requiredCount :: below))
    (hcount : Number.decode? count = some keys.length) (hmax : (keys.length : Int) ≤ maxMultisigKeys)
    (hrequired : Number.decode? requiredCount = some required) (hle : required ≤ keys.length)
    (hfew : below.length ≤ required) :
    ∃ m', (checkMultisig checker).run m = ⟨.error .stackUnderflow, m', []⟩ := by
  rw [run_checkMultisig_counted checker h hcount hmax hrequired hle]
  rcases Nat.lt_or_eq_of_le hfew with hlt | rfl
  · obtain ⟨m', hfail⟩ := run_popMany_of_few (m := { m with stack := below }) hlt
    exact ⟨m', run_bind_error hfail⟩
  · -- the signatures are there, the element below them is not
    have hall : (popMany below.length).run { m with stack := below } =
        ⟨.ok below.reverse, { m with stack := [] }, []⟩ := by
      rw [← List.length_reverse]
      exact run_popMany (by rw [List.reverse_reverse, List.append_nil])
    refine ⟨{ m with stack := [] }, ?_⟩
    rw [run_bind_silent hall, run_bind_error (run_pop_nil rfl)]

/-- With one element more than that it takes all that was asked for and matches the signatures with the keys. -/
theorem run_checkMultisig_taken (checker : Checker) {signatures rest : List Bytes} {extra : Bytes}
    (h : m.stack = count :: (keys.reverse ++ requiredCount :: (signatures.reverse ++ extra :: rest)))
    (hcount : Number.decode? count = some keys.length) (hmax : (keys.length : Int) ≤ maxMultisigKeys)
    (hrequired : Number.decode? requiredCount = some signatures.length)
    (hle : signatures.length ≤ keys.length) :
    (checkMultisig checker).run m = (matchSignatures checker signatures keys).run { m with stack := rest } := by
  have hsignatures := run_popMany (m := { m with stack := signatures.reverse ++ extra :: rest }) rfl
  have hextra := run_pop_cons (m := { m with stack := extra :: rest }) rfl
  rw [run_checkMultisig_counted checker h hcount hmax hrequired hle, run_bind_silent hsignatures,
    run_bind_silent hextra]

/-- So it says whether the signatures match the keys in order. -/
theorem run_checkMultisig (checker : Checker) {signatures rest : List Bytes} {extra : Bytes}
    (h : m.stack = count :: (keys.reverse ++ requiredCount :: (signatures.reverse ++ extra :: rest)))
    (hcount : Number.decode? count = some keys.length) (hmax : (keys.length : Int) ≤ maxMultisigKeys)
    (hrequired : Number.decode? requiredCount = some signatures.length)
    (hle : signatures.length ≤ keys.length) :
    ∃ verdict reports, (checkMultisig checker).run m = ⟨.ok verdict, { m with stack := rest }, reports⟩ ∧
      (verdict = true ↔
        OrderedMatching (fun signature key => checker signature key m.scriptCode) signatures keys) := by
  rw [run_checkMultisig_taken checker h hcount hmax hrequired hle]
  exact run_matchSignatures checker signatures keys { m with stack := rest }

end Counted

end Machine

end CoinScript
