import Mathlib

/-!
# The values a partial map takes along a list

`l.filterMap f` lists the values that `f` takes on the elements of `l` where it is defined.
For a list of keys without duplicates, distinct values mean that `f` is injective where it is
defined (`eq_of_nodup_filterMap`), and defining `f` at one more key adds that key's value to
the list, up to order (`perm_filterMap_insert`).
-/

set_option autoImplicit false

namespace PartialImage

variable {α β γ : Type*}

/-- Distinct values along a duplicate-free list: two keys with one value are one key. -/
theorem eq_of_nodup_filterMap {f : α → Option β} :
    ∀ {l : List α}, l.Nodup → (l.filterMap f).Nodup → ∀ {x y : α}, x ∈ l → y ∈ l →
      ∀ {b : β}, f x = some b → f y = some b → x = y
  | [], _, _, _, _, hx, _, _, _, _ => absurd hx List.not_mem_nil
  | a :: l, hl, h, x, y, hx, hy, b, hfx, hfy => by
    obtain ⟨-, hl⟩ := List.nodup_cons.mp hl
    -- a key of the tail whose value is `b` puts `b` in the tail's list
    have hmem : ∀ {z}, z ∈ l → f z = some b → b ∈ l.filterMap f :=
      fun hz hfz => List.mem_filterMap.mpr ⟨_, hz, hfz⟩
    rcases List.mem_cons.mp hx with rfl | hxl <;> rcases List.mem_cons.mp hy with rfl | hyl
    · rfl
    · rw [List.filterMap_cons_some hfx] at h
      exact absurd (hmem hyl hfy) (List.nodup_cons.mp h).1
    · rw [List.filterMap_cons_some hfy] at h
      exact absurd (hmem hxl hfx) (List.nodup_cons.mp h).1
    · cases hfa : f a with
      | none =>
        rw [List.filterMap_cons_none hfa] at h
        exact eq_of_nodup_filterMap hl h hxl hyl hfx hfy
      | some c =>
        rw [List.filterMap_cons_some hfa] at h
        exact eq_of_nodup_filterMap hl (List.nodup_cons.mp h).2 hxl hyl hfx hfy

/-- **Defining the map at one more key** `q` adds its value `b` to the list, up to order. -/
theorem perm_filterMap_insert {f f' : α → Option β} {q : α} {b : β} (h0 : f q = none)
    (hb : f' q = some b) :
    ∀ {l : List α}, l.Nodup → q ∈ l → (∀ x ∈ l, x ≠ q → f' x = f x) →
      (l.filterMap f').Perm (b :: l.filterMap f)
  | [], _, hq, _ => absurd hq List.not_mem_nil
  | a :: l, hl, hq, hf => by
    obtain ⟨ha, hl⟩ := List.nodup_cons.mp hl
    by_cases haq : a = q
    · -- the new key is the head; the tail has the old values
      subst haq
      rw [List.filterMap_cons_some hb, List.filterMap_cons_none h0,
        List.filterMap_congr fun x hx => hf x (List.mem_cons_of_mem _ hx) fun h => ha (h ▸ hx)]
    · have hq' : q ∈ l := (List.mem_cons.mp hq).resolve_left (Ne.symm haq)
      have ih := perm_filterMap_insert h0 hb hl hq' fun x hx => hf x (List.mem_cons_of_mem _ hx)
      rw [List.filterMap_cons, List.filterMap_cons, hf a List.mem_cons_self haq]
      cases f a with
      | none => exact ih
      | some c => exact (ih.cons c).trans (List.Perm.swap b c _)

/-- The lists below the defined keys, in order. -/
theorem flatMap_filterMap (f : α → Option β) (g : β → List γ) (l : List α) :
    (l.filterMap f).flatMap g = l.flatMap fun a => (f a).toList.flatMap g := by
  rw [List.filterMap_eq_flatMap_toList, List.flatMap_assoc]

end PartialImage
