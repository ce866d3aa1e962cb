import LibYtdl.Dl.InfoQueue
import LibYtdl.Hashmap.Runs

/-!
# The player map

The queue keeps its players in a hash map with the paths of the players as keys. In the models of
the queue and of its cache file the map is a list of players. The hash map answers as the list does,
and it gives the players of the list in some order.
-/

namespace LibYtdl.Dl.PlayerMap

open Machine InfoQueue Hashmap.Table Hashmap.Refinement Hashmap.Runs

variable {Sig : Type}

/-- `hashmap_put` into the player map for each of the players; what it returned for them. -/
def hashmapPuts : HashmapBase Bytes Sig → List (Bytes × Sig) →
    Option (List ℤ × HashmapBase Bytes Sig)
  | hb, [] => some ([], hb)
  | hb, (path, player) :: puts =>
    (hashmapBasePut hashString true true path player hb).bind fun (r, next) ↦
      (hashmapPuts next puts).map fun (codes, last) ↦ (r :: codes, last)

/-- The same with the list of players. -/
def listPuts : List (Bytes × Sig) → List (Bytes × Sig) → List ℤ × List (Bytes × Sig)
  | players, [] => ([], players)
  | players, (path, player) :: puts =>
    let (r, next) := hashmapPut players path player
    let (codes, last) := listPuts next puts
    (r :: codes, last)

/-- The hash map keeps the players of the list. -/
structure Keeps (hb : HashmapBase Bytes Sig) (players : List (Bytes × Sig)) : Prop where
  represents : Represents hashString hb fun path ↦ players.lookup path
  nodup : (players.map Prod.fst).Nodup

section Keeps

variable {hb : HashmapBase Bytes Sig} {players : List (Bytes × Sig)}

theorem keeps_init : Keeps (hashmapBaseInit : HashmapBase Bytes Sig) [] where
  represents := represents_init hashString
  nodup := List.nodup_nil

theorem mem_iff_lookup (h : (players.map Prod.fst).Nodup) (path : Bytes) (player : Sig) :
    (path, player) ∈ players ↔ players.lookup path = some player := by
  induction players with
  | nil => simp
  | cons entry players ih =>
    obtain ⟨first, data⟩ := entry
    rw [List.map_cons, List.nodup_cons] at h
    rw [List.mem_cons, List.lookup_cons, ih h.2]
    by_cases heq : path = first
    · subst heq
      rw [beq_self_eq_true, Prod.mk.injEq, Option.some.injEq, eq_comm (a := data)]
      constructor
      · rintro (⟨-, hdata⟩ | hlookup)
        · exact hdata
        · exact absurd (List.mem_map_of_mem (f := Prod.fst) ((ih h.2).mpr hlookup)) h.1
      · exact fun hdata ↦ .inl ⟨rfl, hdata⟩
    · rw [beq_eq_false_iff_ne.mpr heq, Prod.mk.injEq]
      simp [heq]

/-- One player, with memory for it. -/
theorem Keeps.put (h : Keeps hb players) (hsize : hb.size ≤ sizeMax) (path : Bytes) (player : Sig) :
    ∃ next, hashmapBasePut hashString true true path player hb =
        some ((hashmapPut players path player).1, next) ∧
      Keeps next (hashmapPut players path player).2 ∧ next.size ≤ hb.size + 1 := by
  obtain ⟨r, next, map', hrun, hnext, hmeets, hle, -⟩ :=
    put_meets h.represents hsize true true path player
  generalize hanswer : Answer.code r = answer at hmeets
  rw [hashmapPut]
  cases hmeets with
  | put alloc data hkey =>
    obtain rfl := Answer.code.inj hanswer
    have hnew : path ∉ players.map Prod.fst := by
      rintro hmem
      obtain ⟨⟨first, data⟩, hentry, rfl⟩ := List.mem_map.mp hmem
      rw [(mem_iff_lookup h.nodup first data).mp hentry] at hkey
      exact absurd hkey (Option.some_ne_none data)
    rw [hkey, Option.isSome_none, if_neg Bool.false_ne_true]
    refine ⟨next, hrun, ⟨?_, ?_⟩, hle⟩
    · convert hnext using 1
      funext other
      rw [List.lookup_append]
      by_cases heq : other = path
      · rw [heq, hkey, Function.update_self]
        simp
      · rw [Function.update_of_ne heq, List.lookup_cons, beq_eq_false_iff_ne.mpr heq,
          List.lookup_nil,
          Option.or_none]
    · rw [List.map_append, List.nodup_append]
      refine ⟨h.nodup, List.nodup_singleton _, fun first hfirst second hsecond heq ↦ ?_⟩
      rw [List.map_singleton, List.mem_singleton] at hsecond
      rw [heq, hsecond] at hfirst
      exact hnew hfirst
  | putExists alloc dup data hkey =>
    obtain rfl := Answer.code.inj hanswer
    rw [if_pos (Option.isSome_iff_ne_none.mpr hkey)]
    exact ⟨next, hrun, ⟨hnext, h.nodup⟩, hle⟩
  | putNoMemory alloc dup data hkey hmemory => exact absurd hmemory (by decide)

/-- Any number of players. -/
theorem Keeps.puts (h : Keeps hb players) {puts : List (Bytes × Sig)}
    (hlength : hb.size + puts.length ≤ sizeMax) :
    ∃ last, hashmapPuts hb puts = some ((listPuts players puts).1, last) ∧
      Keeps last (listPuts players puts).2 := by
  induction puts generalizing hb players with
  | nil => exact ⟨hb, rfl, h⟩
  | cons put puts ih =>
    obtain ⟨path, player⟩ := put
    rw [List.length_cons] at hlength
    obtain ⟨next, hput, hnext, hle⟩ := h.put (by omega) path player
    obtain ⟨last, hrun, hlast⟩ := ih hnext (by omega)
    refine ⟨last, ?_, hlast⟩
    simp only [hashmapPuts, hput, Option.bind_some, hrun, Option.map_some, listPuts]

/-- The players come out in some order, each of them once. -/
theorem Keeps.foreach_perm (h : Keeps hb players) : (hashmapForeach hb).Perm players := by
  have hlists := lists_foreach h.represents
  refine (List.perm_ext_iff_of_nodup hlists.nodup.of_map h.nodup.of_map).mpr fun entry ↦ ?_
  rw [hlists.mem entry.1 entry.2, mem_iff_lookup h.nodup]

end Keeps

/-- **The list of players** stands for the player map: after any puts with memory for them, the hash
map returned the same codes, it finds the same players, and an iteration gives the players of the
list in some order. -/
theorem playerMap_refines (puts : List (Bytes × Sig)) (hlength : puts.length ≤ sizeMax) :
    ∃ hb, hashmapPuts hashmapBaseInit puts = some ((listPuts [] puts).1, hb) ∧
      (∀ path, hashmapBaseGet hashString hb path = (listPuts [] puts).2.lookup path) ∧
      (hashmapForeach hb).Perm (listPuts [] puts).2 := by
  have hzero : (hashmapBaseInit : HashmapBase Bytes Sig).size + puts.length ≤ sizeMax := by
    rwa [hashmapBaseInit, Nat.zero_add]
  obtain ⟨hb, hrun, hkeeps⟩ := keeps_init.puts hzero
  exact ⟨hb, hrun, hkeeps.represents.get, hkeeps.foreach_perm⟩

theorem playerMap_refines_twice :
    ∃ hb, hashmapPuts hashmapBaseInit [([47, 97], 0), ([47, 98], 1), ([47, 97], 2)] =
        some ([0, 0, -17], hb) ∧
      (∀ path, hashmapBaseGet hashString hb path =
        [(([47, 97] : Bytes), 0), ([47, 98], 1)].lookup path) ∧
      (hashmapForeach hb).Perm [(([47, 97] : Bytes), 0), ([47, 98], 1)] :=
  playerMap_refines [([47, 97], 0), ([47, 98], 1), ([47, 97], 2)] (by decide)

end LibYtdl.Dl.PlayerMap
