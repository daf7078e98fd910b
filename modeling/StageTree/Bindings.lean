/-! Finite maps from names to texts: at most one binding for a name, kept in the order of the names.
Two of them are equal when they bind the same names to the same texts. -/

namespace StageTree

/-- A map from names to texts. -/
structure Bindings where
  entries : List (String × String)
  sorted : entries.Pairwise (·.1 < ·.1)
  deriving DecidableEq, Repr

namespace Bindings

instance : Inhabited Bindings := ⟨[], .nil⟩

def empty : Bindings := ⟨[], .nil⟩

/-- A binding put into its place, replacing the one of its name. -/
def put (k v : String) : List (String × String) → List (String × String)
  | [] => [(k, v)]
  | (k', v') :: rest =>
    if k < k' then (k, v) :: (k', v') :: rest
    else if k = k' then (k, v) :: rest
    else (k', v') :: put k v rest

theorem mem_put {k v : String} {b : String × String} :
    ∀ {l : List (String × String)}, b ∈ put k v l → b = (k, v) ∨ b ∈ l
  | [], h => by simpa [put] using h
  | (k', v') :: rest, h => by
    simp only [put] at h
    split at h
    · simpa using h
    · split at h
      · rcases List.mem_cons.1 h with h | h
        · exact .inl h
        · exact .inr (List.mem_cons_of_mem _ h)
      · rcases List.mem_cons.1 h with h | h
        · exact .inr (h ▸ List.mem_cons_self)
        · exact (mem_put h).imp id (List.mem_cons_of_mem _)

theorem put_sorted (k v : String) :
    ∀ {l : List (String × String)}, l.Pairwise (·.1 < ·.1) → (put k v l).Pairwise (·.1 < ·.1)
  | [], _ => List.pairwise_singleton _ _
  | (k', v') :: rest, h => by
    have hrest := List.pairwise_cons.1 h
    simp only [put]
    split
    · rename_i hlt
      refine List.pairwise_cons.2 ⟨fun b hb => ?_, h⟩
      rcases List.mem_cons.1 hb with rfl | hb
      · exact hlt
      · exact String.lt_trans hlt (hrest.1 b hb)
    · split
      · rename_i heq
        exact List.pairwise_cons.2 ⟨fun b hb => heq ▸ hrest.1 b hb, hrest.2⟩
      · rename_i hnlt hne
        refine List.pairwise_cons.2 ⟨fun b hb => ?_, put_sorted k v hrest.2⟩
        rcases mem_put hb with rfl | hb
        · rcases Std.le_total (a := k') (b := k) with hle | hle
          · exact Std.lt_of_le_of_ne hle (fun e => hne e.symm)
          · exact absurd (Std.lt_of_le_of_ne hle hne) hnlt
        · exact hrest.1 b hb

def insert (m : Bindings) (k v : String) : Bindings := ⟨put k v m.entries, put_sorted k v m.sorted⟩

/-- The map with further bindings, the last of equal names standing. -/
def insertAll (m : Bindings) (l : List (String × String)) : Bindings :=
  l.foldl (fun m b => m.insert b.1 b.2) m

/-- The map of a list of bindings, the last of equal names standing. -/
def ofList (l : List (String × String)) : Bindings := empty.insertAll l

def get? (m : Bindings) (k : String) : Option String := m.entries.lookup k

def isEmpty (m : Bindings) : Bool := m.entries.isEmpty

end Bindings

end StageTree
