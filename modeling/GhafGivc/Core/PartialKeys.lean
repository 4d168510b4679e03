import Mathlib.Data.List.Nodup
import Mathlib.Data.List.Pairwise

/-! # Lists whose entries carry optional keys

`l.filterMap key` lists the keys of the entries that have one. When it has no
duplicates a key identifies its entry, and replacing an entry trades one key for
another. Where every entry has a key, looking one up does not depend on the order.
-/

namespace Core

variable {α κ : Type}

section Total

variable {key : α → κ} {l : List α}

theorem nodup_map_key {f : α → α} (hkey : ∀ a, key (f a) = key a)
    (h : (l.map key).Nodup) : ((l.map f).map key).Nodup := by
  have hkeys : (l.map f).map key = l.map key := by
    rw [List.map_map]
    exact List.map_congr_left fun a _ => hkey a
  rwa [hkeys]

theorem nodup_map_iff_sublist :
    (l.map key).Nodup ↔ ∀ a b, [a, b].Sublist l → key a ≠ key b := by
  rewrite [List.Nodup, List.pairwise_map, List.pairwise_iff_forall_sublist]
  constructor
  · intro h a b hab
    exact h hab
  · intro h a b hab
    exact h a b hab

theorem find?_key_eq_some_iff [DecidableEq κ] (h : (l.map key).Nodup) {k : κ} {a : α} :
    (l.find? fun b => key b = k) = some a ↔ a ∈ l ∧ key a = k := by
  constructor
  · intro hfind
    exact ⟨List.mem_of_find?_eq_some hfind, by simpa using List.find?_some hfind⟩
  · rintro ⟨hmem, rfl⟩
    cases hfind : l.find? fun b => key b = key a with
    | none =>
        rw [List.find?_eq_none] at hfind
        exact absurd (hfind a hmem) (by simp)
    | some b =>
        have hkey : key b = key a := by simpa using List.find?_some hfind
        rw [List.inj_on_of_nodup_map h (List.mem_of_find?_eq_some hfind) hmem hkey]

theorem find?_key_of_perm [DecidableEq κ] {l' : List α} (h : (l.map key).Nodup)
    (hperm : l'.Perm l) (k : κ) : (l'.find? fun a => key a = k) = l.find? fun a => key a = k := by
  have h' : (l'.map key).Nodup := (hperm.map key).nodup_iff.mpr h
  refine Option.ext fun a => ?_
  rw [find?_key_eq_some_iff h', find?_key_eq_some_iff h, hperm.mem_iff]

end Total

variable {key : α → Option κ} {l : List α}

variable {a b : α}

theorem eq_of_nodup_keys {k : κ} (nodup : (l.filterMap key).Nodup) (ha : a ∈ l) (hb : b ∈ l)
    (hka : key a = some k) (hkb : key b = some k) : a = b := by
  by_contra hne
  have hpair := List.pairwise_filterMap.mp nodup
  have hsymm : Std.Symm fun x y : α => ∀ c, key x = some c → ∀ d, key y = some d → c ≠ d :=
    ⟨fun x y h c hc d hd e => h d hd c hc e.symm⟩
  exact hpair.forall ha hb hne k hka k hkb rfl

theorem filter_eq_singleton {p : α → Bool} {a : α} (nodup : l.Nodup) (ha : a ∈ l)
    (hp : p a = true) (unique : ∀ b ∈ l, p b = true → b = a) : l.filter p = [a] := by
  have hmem : ∀ b, b ∈ l.filter p ↔ b ∈ [a] := by
    intro b
    rw [List.mem_filter, List.mem_singleton]
    constructor
    · rintro ⟨hb, hpb⟩
      exact unique b hb hpb
    · rintro rfl
      exact ⟨ha, hp⟩
  exact List.perm_singleton.mp
    ((List.perm_ext_iff_of_nodup (nodup.filter p) (List.nodup_singleton a)).mpr hmem)

theorem nodup_filterMap_iff_countP [DecidableEq κ] :
    (l.filterMap key).Nodup ↔ ∀ k, l.countP (fun a => key a = some k) ≤ 1 := by
  rw [List.nodup_iff_count_le_one]
  apply forall_congr'
  intro k
  rw [List.count_filterMap]
  simp only [beq_eq_decide]

variable [DecidableEq α]

def trade (a b x : α) : α := if x = a then b else x

theorem mem_keys_trade {j k : κ} (nodup : (l.filterMap key).Nodup) (ha : a ∈ l)
    (hj : key a = some j) (hk : key b = some k) {c : κ} :
    c ∈ (l.map (trade a b)).filterMap key ↔ c = k ∨ (c ∈ l.filterMap key ∧ c ≠ j) := by
  simp only [List.mem_filterMap, List.mem_map, exists_exists_and_eq_and]
  constructor
  · rintro ⟨x, hx, hc⟩
    by_cases hxa : x = a
    · rw [trade, if_pos hxa, hk] at hc
      exact Or.inl (Option.some.inj hc).symm
    · rw [trade, if_neg hxa] at hc
      refine Or.inr ⟨⟨x, hx, hc⟩, ?_⟩
      rintro rfl
      exact hxa (eq_of_nodup_keys nodup hx ha hc hj)
  · rintro (rfl | ⟨⟨x, hx, hc⟩, hne⟩)
    · exact ⟨a, ha, by simp [trade, hk]⟩
    · have hxa : x ≠ a := by
        rintro rfl
        exact hne (Option.some.inj (hc.symm.trans hj))
      exact ⟨x, hx, by simp [trade, hxa, hc]⟩

theorem nodup_keys_trade {j k : κ} (nodup : (l.filterMap key).Nodup) (hj : key a = some j)
    (hk : key b = some k) (fresh : k ∉ l.filterMap key) :
    ((l.map (trade a b)).filterMap key).Nodup := by
  have hpair := List.pairwise_filterMap.mp nodup
  have hfresh : ∀ x ∈ l, key x ≠ some k := fun x hx h => fresh (List.mem_filterMap.mpr ⟨x, hx, h⟩)
  refine List.pairwise_filterMap.mpr (List.pairwise_map.mpr (hpair.imp_of_mem ?_))
  intro x y hx hy hxy c hc d hd
  by_cases hxa : x = a
  · by_cases hya : y = a
    · exact absurd rfl (hxy j (hxa ▸ hj) j (hya ▸ hj))
    · rw [trade, if_pos hxa, hk] at hc
      rw [trade, if_neg hya] at hd
      rintro rfl
      exact hfresh y hy (hd.trans hc.symm)
  · rw [trade, if_neg hxa] at hc
    by_cases hya : y = a
    · rw [trade, if_pos hya, hk] at hd
      rintro rfl
      exact hfresh x hx (hc.trans hd.symm)
    · rw [trade, if_neg hya] at hd
      exact hxy c hc d hd

end Core
