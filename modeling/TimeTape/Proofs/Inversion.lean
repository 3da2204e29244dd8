/-
Turning a table around.

The table of the closers is made from that of the openers, by filing every opener under its partner.
The entries may be gone through in any order, and a later one would replace an earlier one for the
same partner.  If no two openers have the same partner that never happens, and so the order makes no
difference: what is filed in the end is every entry turned around.

The openers of a program are such a table.  No stray is the partner of an opener, so the strays are
filed under indices at which nothing stands yet.
-/
import TimeTape.Proofs.Brackets

namespace TimeTape

namespace Partner

theorem code_ofCode (n : Int) : (ofCode n).code = n := by
  unfold ofCode
  split
  · rename_i h
    exact h.symm
  · rfl

theorem ofCode_eq_some_iff {n c : Int} : ofCode n = some c ↔ n = c ∧ c ≠ -1 := by
  unfold ofCode
  split
  · rename_i h
    simp only [reduceCtorEq, false_iff, not_and]
    intro hn hc
    exact hc (hn ▸ h)
  · rename_i h
    rw [Option.some.injEq]
    exact ⟨fun hn => ⟨hn, hn ▸ h⟩, fun hn => hn.1⟩

end Partner

namespace Pairing

/-! ### Tables in numbers -/

/-- What a table says in numbers, with −1 for a bracket that has no partner. -/
def numbers (table : Std.TreeMap Int Partner) : Std.TreeMap Int Int :=
  table.map fun _ p => p.code

/-- The entries of a map of numbers, as they are filed in a table. -/
def filed (map : Std.TreeMap Int Int) : List (Int × Partner) :=
  map.toList.map fun e => (e.1, Partner.ofCode e.2)

/-- No two keys share a value other than −1. -/
def OneToOne (map : Std.TreeMap Int Int) : Prop :=
  ∀ o o' c : Int, c ≠ -1 → map[o]? = some c → map[o']? = some c → o = o'

theorem getElem?_numbers {table : Std.TreeMap Int Partner} {k n : Int} :
    (numbers table)[k]? = some n ↔ ∃ p, table[k]? = some p ∧ p.code = n := by
  rw [numbers, Std.TreeMap.getElem?_map, Option.map_eq_some_iff]

/-- A table that is made of a map of numbers says the same. -/
theorem getElem?_ofForward_filed (map : Std.TreeMap Int Int) (k : Int) (p : Partner) :
    (ofForward (filed map)).forward[k]? = some p ↔
      ∃ n, map[k]? = some n ∧ Partner.ofCode n = p := by
  have hkeys : ((filed map).map Prod.fst).Nodup := by
    have hpairs : map.toList.Pairwise fun a b => ¬compare a.1 b.1 = .eq :=
      Std.TreeMap.distinct_keys_toList
    rw [filed, List.map_map, List.Nodup, List.pairwise_map]
    exact hpairs.imp fun h heq => h (by simpa using heq)
  rw [ofForward, getElem?_ofList_iff hkeys, filed, List.mem_map]
  constructor
  · rintro ⟨⟨k', n⟩, hmem, heq⟩
    obtain ⟨rfl, rfl⟩ := Prod.mk.inj heq
    exact ⟨n, Std.TreeMap.mem_toList_iff_getElem?_eq_some.mp hmem, rfl⟩
  · rintro ⟨n, hn, rfl⟩
    exact ⟨(k, n), Std.TreeMap.mem_toList_iff_getElem?_eq_some.mpr hn, rfl⟩

theorem getElem?_numbers_ofForward (map : Std.TreeMap Int Int) (k n : Int) :
    (numbers (ofForward (filed map)).forward)[k]? = some n ↔ map[k]? = some n := by
  rw [getElem?_numbers]
  simp only [getElem?_ofForward_filed]
  constructor
  · rintro ⟨p, ⟨m, hm, rfl⟩, rfl⟩
    rwa [Partner.code_ofCode]
  · intro hn
    exact ⟨Partner.ofCode n, ⟨n, hn, rfl⟩, Partner.code_ofCode n⟩

/-- An entry has a partner in the table exactly where the map has a number other than −1. -/
theorem ofForward_filed_eq_some_iff {map : Std.TreeMap Int Int} {o c : Int} :
    (ofForward (filed map)).forward[o]? = some (some c) ↔ map[o]? = some c ∧ c ≠ -1 := by
  rw [getElem?_ofForward_filed]
  simp only [Partner.ofCode_eq_some_iff]
  constructor
  · rintro ⟨n, hn, rfl, hne⟩
    exact ⟨hn, hne⟩
  · intro h
    exact ⟨c, h.1, rfl, h.2⟩

theorem OneToOne.partners_once {map : Std.TreeMap Int Int} (h : OneToOne map) {o o' c : Int}
    (ho : (ofForward (filed map)).forward[o]? = some (some c))
    (ho' : (ofForward (filed map)).forward[o']? = some (some c)) : o = o' := by
  obtain ⟨hc, hne⟩ := ofForward_filed_eq_some_iff.mp ho
  exact h o o' c hne hc (ofForward_filed_eq_some_iff.mp ho').1

/-! ### Any order gives the same -/

section AnyOrder

variable {table : Std.TreeMap Int Partner} {visits : List (Int × Partner)}

/-- Whatever order the entries are visited in, every one with a partner is filed under it. -/
theorem getElem?_invert_of_perm
    (honce : ∀ o o' c : Int, table[o]? = some (some c) → table[o']? = some (some c) → o = o')
    (hvisits : visits.Perm table.toList) (c : Int) (p : Partner) :
    (invert visits)[c]? = some p ↔ ∃ o, table[o]? = some (some c) ∧ p = Partner.ofCode o := by
  have hsymm : ∀ {a b : Int × Partner}, (∀ c, a.2 = some c → b.2 ≠ some c) →
      ∀ c, b.2 = some c → a.2 ≠ some c := fun h c hb ha => h c ha hb
  have hpartners : PartnersOnce visits :=
    (hvisits.pairwise_iff hsymm).mpr (partnersOnce_toList honce)
  rw [getElem?_invert hpartners]
  simp only [hvisits.mem_iff, Std.TreeMap.mem_toList_iff_getElem?_eq_some]

theorem getElem?_numbers_invert
    (honce : ∀ o o' c : Int, table[o]? = some (some c) → table[o']? = some (some c) → o = o')
    (hvisits : visits.Perm table.toList) (c o : Int) :
    (numbers (invert visits))[c]? = some o ↔ table[o]? = some (some c) := by
  rw [getElem?_numbers]
  constructor
  · rintro ⟨p, hp, rfl⟩
    obtain ⟨o, ho, rfl⟩ := (getElem?_invert_of_perm honce hvisits c p).mp hp
    rwa [Partner.code_ofCode]
  · intro ho
    refine ⟨Partner.ofCode o, ?_, Partner.code_ofCode o⟩
    exact (getElem?_invert_of_perm honce hvisits c _).mpr ⟨o, ho, rfl⟩

end AnyOrder

/-! ### The strays come last -/

/-- Files the strays of a program, on top of the closers that have a partner. -/
def fileStrays (code : Bytes) (table : Std.TreeMap Int Partner) : Std.TreeMap Int Partner :=
  (scan code).strays.foldl (fun t c => t.insert (Int.ofNat c) none) table

theorem backward_ofBytes (code : Bytes) :
    (ofBytes code).backward = fileStrays code (invert (ofBytes code).forward.toList) :=
  rfl

/-- What has been filed under another index than that of a stray stays. -/
theorem getElem?_fileStrays_of_not_stray {code : Bytes} {i : Int}
    (h : ∀ c ∈ (scan code).strays, Int.ofNat c ≠ i) (table : Std.TreeMap Int Partner) :
    (fileStrays code table)[i]? = table[i]? := by
  rw [fileStrays, getElem?_foldl_strays, if_neg]
  rintro ⟨c, hc, hci⟩
  exact h c hc hci

theorem fileStrays_congr {code : Bytes} {a b : Std.TreeMap Int Partner} {i : Int}
    (h : a[i]? = b[i]?) : (fileStrays code a)[i]? = (fileStrays code b)[i]? := by
  rw [fileStrays, fileStrays, getElem?_foldl_strays, getElem?_foldl_strays, h]

theorem not_stray_of_forward {code : Bytes} {o c : Int}
    (h : (ofBytes code).forward[o]? = some (some c)) :
    ∀ s ∈ (scan code).strays, Int.ofNat s ≠ c := by
  intro s hs heq
  obtain ⟨p, hp, -, rfl⟩ := forward_eq_partner_iff.mp h
  exact not_stray_of_pair hp (Int.ofNat.inj heq ▸ hs)

/-- In numbers, an opener of a program has a partner if its number is not −1. -/
theorem getElem?_numbers_forward {code : Bytes} {o c : Int} :
    (numbers (ofBytes code).forward)[o]? = some c ∧ c ≠ -1 ↔
      (ofBytes code).forward[o]? = some (some c) := by
  rw [getElem?_numbers]
  constructor
  · rintro ⟨⟨p, hp, rfl⟩, hne⟩
    cases p with
    | none => exact absurd rfl hne
    | some c => exact hp
  · intro h
    have hinside := forward_partner_inside h
    exact ⟨⟨some c, h, rfl⟩, by omega⟩

theorem oneToOne_forward (code : Bytes) : OneToOne (numbers (ofBytes code).forward) := by
  intro o o' c hne ho ho'
  exact eq_of_forward_eq code (getElem?_numbers_forward.mp ⟨ho, hne⟩)
    (getElem?_numbers_forward.mp ⟨ho', hne⟩)

theorem stray_is_no_value {code : Bytes} {s : Nat} (hs : s ∈ (scan code).strays) (o : Int) :
    (numbers (ofBytes code).forward)[o]? ≠ some (Int.ofNat s) := by
  intro ho
  have hpartner := getElem?_numbers_forward.mp ⟨ho, by simp⟩
  exact not_stray_of_forward hpartner s hs rfl

section Visits

variable {code : Bytes} {visits : List (Int × Partner)}

theorem getElem?_invert_visits (hvisits : visits.Perm (ofBytes code).forward.toList) (c : Int)
    (p : Partner) :
    (invert visits)[c]? = some p ↔
      ∃ o, (ofBytes code).forward[o]? = some (some c) ∧ p = Partner.ofCode o :=
  getElem?_invert_of_perm (fun _ _ _ => eq_of_forward_eq code) hvisits c p

/-- The strays replace nothing. -/
theorem getElem?_fileStrays_of_mem (hvisits : visits.Perm (ofBytes code).forward.toList) {c : Int}
    (hc : c ∈ invert visits) : (fileStrays code (invert visits))[c]? = (invert visits)[c]? := by
  obtain ⟨p, hp⟩ := Option.isSome_iff_exists.mp (Std.TreeMap.mem_iff_isSome_getElem?.mp hc)
  obtain ⟨o, ho, -⟩ := (getElem?_invert_visits hvisits c p).mp hp
  exact getElem?_fileStrays_of_not_stray (not_stray_of_forward ho) _

/-- Whatever the order of the visits, the closers end up in the same table. -/
theorem getElem?_fileStrays_invert (hvisits : visits.Perm (ofBytes code).forward.toList) (c : Int) :
    (fileStrays code (invert visits))[c]? = (ofBytes code).backward[c]? := by
  rw [backward_ofBytes]
  refine fileStrays_congr (Option.ext ?_)
  intro p
  exact (getElem?_invert_visits hvisits c p).trans
    (getElem?_invert_visits (List.Perm.refl _) c p).symm

end Visits

/--
**Turning a table around does not depend on the order.**  Take a map in which no two keys share a
value other than −1, and its entries in any order.  What is filed in the end under `c` is `o`
exactly when the map takes `o` to `c` and `c` is not −1.  The openers of every program are such a
map, and no stray is a value of it.  So the strays, which are filed after that, replace nothing, and
the table of the closers is the same for every order.
-/
theorem inversion_ignores_order :
    (∀ map : Std.TreeMap Int Int, OneToOne map →
      let t := ofForward (filed map)
      (∀ o n : Int, (numbers t.forward)[o]? = some n ↔ map[o]? = some n) ∧
      (∀ c o : Int, (numbers t.backward)[c]? = some o ↔ map[o]? = some c ∧ c ≠ -1) ∧
      ∀ visits : List (Int × Partner), visits.Perm t.forward.toList →
        ∀ c o : Int, (numbers (invert visits))[c]? = some o ↔ map[o]? = some c ∧ c ≠ -1) ∧
    ∀ code : Bytes,
      let t := ofBytes code
      OneToOne (numbers t.forward) ∧
      (∀ s ∈ (scan code).strays, ∀ o : Int, (numbers t.forward)[o]? ≠ some (Int.ofNat s)) ∧
      ∀ visits : List (Int × Partner), visits.Perm t.forward.toList →
        (∀ c o : Int, (numbers (invert visits))[c]? = some o ↔
          (numbers t.forward)[o]? = some c ∧ c ≠ -1) ∧
        (∀ c ∈ invert visits, (fileStrays code (invert visits))[c]? = (invert visits)[c]?) ∧
        ∀ c : Int, (fileStrays code (invert visits))[c]? = t.backward[c]? := by
  refine ⟨?_, ?_⟩
  · intro map honce t
    have hinverse : ∀ visits : List (Int × Partner), visits.Perm t.forward.toList →
        ∀ c o : Int, (numbers (invert visits))[c]? = some o ↔ map[o]? = some c ∧ c ≠ -1 := by
      intro visits hvisits c o
      rw [getElem?_numbers_invert (fun _ _ _ => honce.partners_once) hvisits,
        ofForward_filed_eq_some_iff]
    exact ⟨getElem?_numbers_ofForward map, hinverse t.forward.toList (List.Perm.refl _), hinverse⟩
  · intro code t
    refine ⟨oneToOne_forward code, fun s hs => stray_is_no_value hs, ?_⟩
    intro visits hvisits
    refine ⟨?_, fun c hc => getElem?_fileStrays_of_mem hvisits hc,
      getElem?_fileStrays_invert hvisits⟩
    intro c o
    rw [getElem?_numbers_invert (fun _ _ _ => eq_of_forward_eq code) hvisits,
      getElem?_numbers_forward]

/--
A map with two keys that have no partner, and one whose key is −1.  Its entries are visited from the
last to the first but for the key −1, which comes in between.
-/
theorem inversion_ignores_order_of_five :
    let map : Std.TreeMap Int Int := .ofList [(-1, 7), (0, 4), (1, -1), (2, 3), (5, -1)]
    let visits : List (Int × Partner) :=
      [(5, none), (2, some 3), (-1, some 7), (1, none), (0, some 4)]
    OneToOne map ∧ visits.Perm (ofForward (filed map)).forward.toList ∧
      ∀ c o : Int, (numbers (invert visits))[c]? = some o ↔ map[o]? = some c ∧ c ≠ -1 := by
  intro map visits
  have hentries : map.toList = [(-1, 7), (0, 4), (1, -1), (2, 3), (5, -1)] := by decide
  have honce : OneToOne map := by
    intro o o' c hne ho ho'
    rw [← Std.TreeMap.mem_toList_iff_getElem?_eq_some, hentries] at ho ho'
    simp only [List.mem_cons, Prod.mk.injEq, List.not_mem_nil, or_false] at ho ho'
    omega
  have hvisits : visits.Perm (ofForward (filed map)).forward.toList := by decide
  exact ⟨honce, hvisits, (inversion_ignores_order.1 map honce).2.2 visits hvisits⟩

end Pairing

end TimeTape
