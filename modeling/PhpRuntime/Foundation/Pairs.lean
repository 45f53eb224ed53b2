import Mathlib.Data.List.Nodup

/-! Lists of pairs in which no key occurs twice, and what an insertion does to the keys. -/

namespace PhpRuntime.Pairs

variable {κ α : Type}

def keys (pairs : List (κ × α)) : List κ := pairs.map Prod.fst

@[simp] theorem keys_nil : keys ([] : List (κ × α)) = [] := rfl

@[simp] theorem keys_cons (pair : κ × α) (pairs : List (κ × α)) :
    keys (pair :: pairs) = pair.1 :: keys pairs := rfl

@[simp] theorem keys_append (front back : List (κ × α)) :
    keys (front ++ back) = keys front ++ keys back := List.map_append

variable [DecidableEq κ]

/-! ### Storing a pair -/

/-- Storing a pair: a key that is there keeps its place, and its value unless `overwrite`;
a new key goes to the end. -/
def upsert (overwrite : Bool) (pairs : List (κ × α)) (entry : κ × α) : List (κ × α) :=
  if entry.1 ∈ keys pairs then
    if overwrite then pairs.map fun pair => if pair.1 = entry.1 then entry else pair else pairs
  else
    pairs ++ [entry]

variable {overwrite : Bool} {pairs : List (κ × α)} {entry : κ × α}

theorem keys_upsert :
    keys (upsert overwrite pairs entry) =
      if entry.1 ∈ keys pairs then keys pairs else keys pairs ++ [entry.1] := by
  unfold upsert
  split
  · split
    · simp only [keys, List.map_map]
      apply List.map_congr_left
      intro pair _
      simp only [Function.comp_apply]
      split
      · rename_i same
        exact same.symm
      · rfl
    · rfl
  · simp

theorem nodup_upsert (nodup : (keys pairs).Nodup) :
    (keys (upsert overwrite pairs entry)).Nodup := by
  rw [keys_upsert]
  split
  · exact nodup
  · rename_i absent
    exact List.nodup_append.mpr ⟨nodup, by simp, by
      intro key old key' isNew equal
      exact absent ((List.mem_singleton.mp isNew) ▸ equal ▸ old)⟩

end PhpRuntime.Pairs
