import Mathlib.Data.List.Basic
import OpTree.Limits.Config

/-!
# The grammar of configurations

What a configuration means is told here without reading it. `Limit.Spelled value limit` says that a
document spells a limit, `Limits.Configures config limits` that a configuration gives these limits,
and `Limits.Refuses config err` why it gives none. Reading entries one after the other gives every
resource the limit of its last entry (`Limits.setEntries_eq_ok`), so that it does not matter in
which order the entries come if no two have the same name.

Main statement: `Limits.ofJson_iff_grammar`.
-/

namespace OpTree

open List

/-! ### Names and limits -/

/-- The name of a resource in a configuration. -/
def Resource.name : Resource → String
  | counter c => c.name
  | evaluationTime => "evaluationTime"
  | callTime => "callTime"

theorem Counter.ofName?_eq_some {name : String} {c : Counter} :
    Counter.ofName? name = some c ↔ c.name = name := by
  constructor
  · intro h
    simpa using find?_some h
  · rintro rfl
    cases c <;> rfl

/-- A resource is found by its name and by no other. -/
theorem Resource.ofName?_eq_some {name : String} {r : Resource} :
    Resource.ofName? name = some r ↔ r.name = name := by
  constructor
  · intro h
    rw [ofName?] at h
    split at h
    · rename_i hname
      cases h
      exact hname.symm
    · split at h
      · rename_i hname
        cases h
        exact hname.symm
      · obtain ⟨c, hc, rfl⟩ := Option.map_eq_some_iff.1 h
        exact Counter.ofName?_eq_some.1 hc
  · rintro rfl
    rcases r with c | _ | _
    · cases c <;> rfl
    · rfl
    · rfl

theorem Resource.name_injective {r r' : Resource} (h : r.name = r'.name) : r = r' :=
  Option.some.inj ((ofName?_eq_some.2 rfl).symm.trans (ofName?_eq_some.2 h.symm))

/-- The document spells the limit: null and zero spell none, and every other whole number without a
sign that fits 64 bits spells itself. -/
inductive Limit.Spelled : Json → Limit → Prop
  | null : Spelled .null none
  | zero : Spelled (.int 0) none
  | bound {n : Nat} : 0 < n → n < UInt64.size → Spelled (.int n) (some n)

theorem Json.unsigned?_eq_some {value : Json} {n : Nat} :
    value.unsigned? = some n ↔ value = .int n ∧ n < UInt64.size := by
  cases value with
  | int k =>
    rw [unsigned?, Option.ite_none_right_eq_some, Option.some.injEq, Json.int.injEq]
    constructor
    · rintro ⟨⟨hk, hlt⟩, rfl⟩
      exact ⟨(Int.toNat_of_nonneg hk).symm, hlt⟩
    · rintro ⟨rfl, hlt⟩
      exact ⟨⟨Int.natCast_nonneg n, hlt⟩, Int.toNat_natCast n⟩
  | null | bool | float | str | arr | obj => simp [unsigned?]

/-- The limits that a document spells are those that are read from it. -/
theorem Limits.limitOfJson?_eq_some {value : Json} {limit : Limit} :
    limitOfJson? value = some limit ↔ limit.Spelled value := by
  have hnumber (h : value.unsigned?.map Limit.ofNat = some limit) : limit.Spelled value := by
    obtain ⟨n, hn, rfl⟩ := Option.map_eq_some_iff.1 h
    obtain ⟨rfl, hlt⟩ := Json.unsigned?_eq_some.1 hn
    rcases Nat.eq_zero_or_pos n with rfl | hpos
    · exact .zero
    · rw [Limit.ofNat, if_neg (Nat.ne_of_gt hpos)]
      exact .bound hpos hlt
  constructor
  · cases value with
    | null =>
      rintro ⟨⟩
      exact .null
    | bool | int | float | str | arr | obj => exact hnumber
  · rintro (_ | _ | ⟨hpos, hlt⟩)
    · rfl
    · rfl
    · have hread := Json.unsigned?_eq_some.2 ⟨rfl, hlt⟩
      rw [limitOfJson?, hread, Option.map_some, Limit.ofNat, if_neg (Nat.ne_of_gt hpos)]
      simp

/-! ### Entries -/

namespace Limits

/-- The entry names a resource and spells a limit. -/
def IsEntry (entry : String × Json) : Prop :=
  ∃ (r : Resource) (limit : Limit), r.name = entry.1 ∧ limit.Spelled entry.2

/-- The last entry of a resource spells the limit. -/
def LastSpells (fields : List (String × Json)) (r : Resource) (limit : Limit) : Prop :=
  ∃ before value after, fields = before ++ (r.name, value) :: after ∧
    r.name ∉ after.map Prod.fst ∧ limit.Spelled value

theorem setEntry_eq_ok {limits new : Limits} {key : String} {value : Json} :
    limits.setEntry key value = .ok new ↔
      ∃ (r : Resource) (limit : Limit), r.name = key ∧ limit.Spelled value ∧
        new = limits.set r limit := by
  rw [setEntry]
  constructor
  · intro h
    split at h
    · rename_i limit r hlimit hr
      cases h
      exact ⟨r, limit, Resource.ofName?_eq_some.1 hr, limitOfJson?_eq_some.1 hlimit, rfl⟩
    · cases h
  · rintro ⟨r, limit, hr, hlimit, rfl⟩
    rw [limitOfJson?_eq_some.2 hlimit, Resource.ofName?_eq_some.2 hr]

theorem setEntry_eq_error {limits : Limits} {key : String} {value : Json} {err : ConfigError} :
    limits.setEntry key value = .error err ↔ ¬ IsEntry (key, value) ∧ err = .invalidLimit key := by
  rw [setEntry]
  split
  · rename_i limit r hlimit hr
    have hentry : IsEntry (key, value) :=
      ⟨r, limit, Resource.ofName?_eq_some.1 hr, limitOfJson?_eq_some.1 hlimit⟩
    simp [hentry]
  · rename_i hnone
    have hentry : ¬ IsEntry (key, value) := by
      rintro ⟨r, limit, hr, hlimit⟩
      exact hnone limit r (limitOfJson?_eq_some.2 hlimit) (Resource.ofName?_eq_some.2 hr)
    simp [hentry, eq_comm]

/-- Sets the limits that entries name, one after the other. -/
def setEntries (limits : Limits) (fields : List (String × Json)) : Except ConfigError Limits :=
  fields.foldlM (fun limits (key, value) => limits.setEntry key value) limits

theorem setEntries_cons (limits : Limits) (key : String) (value : Json)
    (fields : List (String × Json)) :
    limits.setEntries ((key, value) :: fields) =
      limits.setEntry key value >>= fun limits => limits.setEntries fields := rfl

section

variable {limits new : Limits} {fields fields' : List (String × Json)} {r : Resource}
  {limit : Limit} {f : String × Json}

theorem LastSpells.cons (h : LastSpells fields r limit) : LastSpells (f :: fields) r limit := by
  obtain ⟨before, value, after, rfl, hafter, hlimit⟩ := h
  exact ⟨f :: before, value, after, rfl, hafter, hlimit⟩

/-- A resource that is named by entries has a last one. -/
theorem exists_lastSpells (hall : ∀ f ∈ fields, IsEntry f) (hr : r.name ∈ fields.map Prod.fst) :
    ∃ limit, LastSpells fields r limit := by
  induction fields with
  | nil => cases hr
  | cons f fields ih =>
    rw [forall_mem_cons] at hall
    by_cases hlater : r.name ∈ fields.map Prod.fst
    · obtain ⟨limit, hlimit⟩ := ih hall.2 hlater
      exact ⟨limit, hlimit.cons⟩
    · have hname : r.name = f.1 := (mem_cons.1 hr).resolve_right hlater
      obtain ⟨_, limit, -, hlimit⟩ := hall.1
      exact ⟨limit, [], f.2, fields, by rw [hname, nil_append], hlater, hlimit⟩

/-- Where no two entries have the same name, every entry is the last one of its resource. -/
theorem lastSpells_iff_of_nodup (hnodup : (fields.map Prod.fst).Nodup) :
    LastSpells fields r limit ↔ ∃ value, (r.name, value) ∈ fields ∧ limit.Spelled value := by
  constructor
  · rintro ⟨before, value, after, rfl, -, hlimit⟩
    exact ⟨value, by simp, hlimit⟩
  · rintro ⟨value, hmem, hlimit⟩
    obtain ⟨before, after, rfl⟩ := append_of_mem hmem
    rw [map_append, map_cons, nodup_append, nodup_cons] at hnodup
    exact ⟨before, value, after, rfl, hnodup.2.1.1, hlimit⟩

private theorem bound_setEntries (h : limits.setEntries fields = .ok new) :
    (∀ f ∈ fields, IsEntry f) ∧ (∀ r limit, LastSpells fields r limit → new.bound r = limit) ∧
      ∀ r : Resource, r.name ∉ fields.map Prod.fst → new.bound r = limits.bound r := by
  induction fields generalizing limits with
  | nil =>
    cases h
    refine ⟨by simp, ?_, fun r _ => rfl⟩
    rintro r limit ⟨before, value, after, h, -⟩
    simp at h
  | cons f fields ih =>
    obtain ⟨key, value⟩ := f
    rw [setEntries_cons] at h
    cases hset : limits.setEntry key value with
    | error err =>
      rw [hset] at h
      cases h
    | ok mid =>
      rw [hset] at h
      obtain ⟨r₀, limit₀, rfl, hlimit₀, rfl⟩ := setEntry_eq_ok.1 hset
      obtain ⟨hall, hlast, hkeep⟩ := ih h
      refine ⟨forall_mem_cons.2 ⟨⟨r₀, limit₀, rfl, hlimit₀⟩, hall⟩, ?_, fun r hr => ?_⟩
      · rintro r limit ⟨_ | ⟨_, before⟩, value', after, hfields, hafter, hlimit⟩
        · -- no later entry has the name
          obtain ⟨hf, rfl⟩ := cons.inj hfields
          obtain ⟨hname, rfl⟩ := Prod.mk.inj hf
          obtain rfl := Resource.name_injective hname
          have hsame := (limitOfJson?_eq_some.2 hlimit₀).symm.trans (limitOfJson?_eq_some.2 hlimit)
          rw [hkeep r₀ hafter, bound_set, if_pos rfl]
          exact Option.some.inj hsame
        · exact hlast r limit ⟨before, value', after, (cons.inj hfields).2, hafter, hlimit⟩
      · rw [map_cons, mem_cons, not_or] at hr
        rw [hkeep r hr.2, bound_set, if_neg fun h => hr.1 (congrArg Resource.name h)]

theorem exists_setEntries (hall : ∀ f ∈ fields, IsEntry f) (limits : Limits) :
    ∃ new, limits.setEntries fields = .ok new := by
  induction fields generalizing limits with
  | nil => exact ⟨limits, rfl⟩
  | cons f fields ih =>
    rw [forall_mem_cons] at hall
    obtain ⟨r, limit, hr, hlimit⟩ := hall.1
    obtain ⟨new, hnew⟩ := ih hall.2 (limits.set r limit)
    have hset : limits.setEntry f.1 f.2 = .ok (limits.set r limit) :=
      setEntry_eq_ok.2 ⟨r, limit, hr, hlimit, rfl⟩
    exact ⟨new, by rw [setEntries_cons, hset]; exact hnew⟩

/-- **Every resource gets the limit of its last entry**, and one without entries keeps its own. -/
theorem setEntries_eq_ok : limits.setEntries fields = .ok new ↔
    (∀ f ∈ fields, IsEntry f) ∧ (∀ r limit, LastSpells fields r limit → new.bound r = limit) ∧
      ∀ r : Resource, r.name ∉ fields.map Prod.fst → new.bound r = limits.bound r := by
  refine ⟨bound_setEntries, fun ⟨hall, hlast, hkeep⟩ => ?_⟩
  obtain ⟨read, hread⟩ := exists_setEntries hall limits
  obtain ⟨-, hlast', hkeep'⟩ := bound_setEntries hread
  have hbound : read.bound = new.bound := by
    funext r
    by_cases hr : r.name ∈ fields.map Prod.fst
    · obtain ⟨limit, hlimit⟩ := exists_lastSpells hall hr
      rw [hlast' r limit hlimit, hlast r limit hlimit]
    · rw [hkeep' r hr, hkeep r hr]
  rw [hread]
  exact congrArg (fun bound => (.ok ⟨bound⟩ : Except ConfigError Limits)) hbound

/-- **The first entry that is none is to blame.** -/
theorem setEntries_eq_error {err : ConfigError} : limits.setEntries fields = .error err ↔
    ∃ before key value after, fields = before ++ (key, value) :: after ∧
      (∀ f ∈ before, IsEntry f) ∧ ¬ IsEntry (key, value) ∧ err = .invalidLimit key := by
  constructor
  · intro h
    induction fields generalizing limits with
    | nil => cases h
    | cons f fields ih =>
      obtain ⟨key, value⟩ := f
      rw [setEntries_cons] at h
      cases hset : limits.setEntry key value with
      | error err' =>
        rw [hset] at h
        cases h
        obtain ⟨hentry, rfl⟩ := setEntry_eq_error.1 hset
        exact ⟨[], key, value, fields, rfl, by simp, hentry, rfl⟩
      | ok mid =>
        rw [hset] at h
        obtain ⟨r, limit, hr, hlimit, -⟩ := setEntry_eq_ok.1 hset
        obtain ⟨before, key', value', after, rfl, hbefore, hentry, herr⟩ := ih h
        exact ⟨(key, value) :: before, key', value', after, rfl,
          forall_mem_cons.2 ⟨⟨r, limit, hr, hlimit⟩, hbefore⟩, hentry, herr⟩
  · rintro ⟨before, key, value, after, rfl, hbefore, hentry, rfl⟩
    obtain ⟨mid, hmid⟩ := exists_setEntries hbefore limits
    have hset : mid.setEntry key value = .error (.invalidLimit key) :=
      setEntry_eq_error.2 ⟨hentry, rfl⟩
    rw [setEntries] at hmid ⊢
    rw [foldlM_append, hmid]
    change (mid.setEntry key value >>= fun limits => limits.setEntries after) = _
    rw [hset]
    rfl

end

/-! ### Configurations -/

/-- The configuration gives these limits: null lifts every bound, a limit is that of every counter,
and in an object every resource has the limit of its last entry and otherwise its default. -/
inductive Configures : Json → Limits → Prop
  | unlimited : Configures .null ⟨fun _ => none⟩
  | global {n : Int} {limit : Limit} {limits : Limits} : limit.Spelled (.int n) →
      (∀ c, limits.bound (.counter c) = limit) →
      limits.bound .evaluationTime = default.bound .evaluationTime →
      limits.bound .callTime = default.bound .callTime → Configures (.int n) limits
  | entries {fields : List (String × Json)} {limits : Limits} : (∀ f ∈ fields, IsEntry f) →
      (∀ r limit, LastSpells fields r limit → limits.bound r = limit) →
      (∀ r : Resource, r.name ∉ fields.map Prod.fst → limits.bound r = default.bound r) →
      Configures (.obj fields) limits

/-- The configuration is refused: in an object the first entry is to blame that names no resource
or spells no limit. -/
inductive Refuses : Json → ConfigError → Prop
  | entry {before after : List (String × Json)} {key : String} {value : Json} :
      (∀ f ∈ before, IsEntry f) → ¬ IsEntry (key, value) →
      Refuses (.obj (before ++ (key, value) :: after)) (.invalidLimit key)
  | other {config : Json} : (∀ fields, config ≠ .obj fields) →
      (∀ limit : Limit, ¬ limit.Spelled config) → Refuses config .invalidLimits

section

variable {config : Json} {limits : Limits} {err : ConfigError}

/-- A number is a limit for every counter. -/
private theorem ofJson_int (n : Int) :
    (∃ k, ofJson (.int n) = .ok (global k) ∧ limitOfJson? (.int n) = some (.ofNat k)) ∨
      ofJson (.int n) = .error .invalidLimits ∧ limitOfJson? (.int n) = none := by
  simp only [ofJson, limitOfJson?]
  cases (Json.int n).unsigned? with
  | none => exact .inr ⟨rfl, rfl⟩
  | some k => exact .inl ⟨k, rfl, rfl⟩

/-- **What is accepted** is what follows the grammar. -/
theorem ofJson_eq_ok : ofJson config = .ok limits ↔ Configures config limits := by
  constructor
  · intro h
    cases config with
    | null =>
      cases h
      exact .unlimited
    | obj fields =>
      obtain ⟨hall, hlast, hkeep⟩ := setEntries_eq_ok.1 h
      exact .entries hall hlast hkeep
    | int n =>
      rcases ofJson_int n with ⟨k, hk, hlimit⟩ | ⟨hk, -⟩
      · cases hk.symm.trans h
        exact .global (limitOfJson?_eq_some.1 hlimit) (fun _ => rfl) rfl rfl
      · cases hk.symm.trans h
    | bool | float | str | arr => cases h
  · intro h
    cases h with
    | unlimited => rfl
    | entries hall hlast hkeep => exact setEntries_eq_ok.2 ⟨hall, hlast, hkeep⟩
    | @global n limit _ hlimit hcounters hevaluation hcall =>
      have hread := limitOfJson?_eq_some.2 hlimit
      rcases ofJson_int n with ⟨k, hk, hlimit'⟩ | ⟨-, hlimit'⟩
      · obtain rfl := Option.some.inj (hlimit'.symm.trans hread)
        have hbound : (global k).bound = limits.bound := by
          funext r
          cases r with
          | counter c => exact (hcounters c).symm
          | evaluationTime => exact hevaluation.symm
          | callTime => exact hcall.symm
        rw [hk]
        exact congrArg (fun bound => (.ok ⟨bound⟩ : Except ConfigError Limits)) hbound
      · cases hlimit'.symm.trans hread

/-- **What is refused** is refused for its first fault. -/
theorem ofJson_eq_error : ofJson config = .error err ↔ Refuses config err := by
  constructor
  · intro h
    cases config with
    | null => cases h
    | obj fields =>
      obtain ⟨before, key, value, after, rfl, hbefore, hentry, rfl⟩ := setEntries_eq_error.1 h
      exact .entry hbefore hentry
    | int n =>
      rcases ofJson_int n with ⟨k, hk, -⟩ | ⟨hk, hlimit⟩
      · cases hk.symm.trans h
      · cases hk.symm.trans h
        refine .other (by simp) fun limit hspelled => ?_
        cases hlimit.symm.trans (limitOfJson?_eq_some.2 hspelled)
    | bool | float | str | arr =>
      cases h
      exact .other (by simp) fun limit hspelled => by cases hspelled
  · intro h
    cases h with
    | entry hbefore hentry => exact setEntries_eq_error.2 ⟨_, _, _, _, rfl, hbefore, hentry, rfl⟩
    | other hobj hspelled =>
      cases config with
      | null => exact absurd .null (hspelled none)
      | obj fields => exact absurd rfl (hobj fields)
      | int n =>
        rcases ofJson_int n with ⟨k, -, hlimit⟩ | ⟨hk, -⟩
        · exact absurd (limitOfJson?_eq_some.1 hlimit) (hspelled _)
        · exact hk
      | bool | float | str | arr => rfl

end

/-- Where no two entries have the same name, their order does not matter. -/
theorem Configures.perm {fields fields' : List (String × Json)} {limits : Limits}
    (h : Configures (.obj fields) limits) (hperm : fields.Perm fields')
    (hnodup : (fields.map Prod.fst).Nodup) : Configures (.obj fields') limits := by
  cases h with
  | entries hall hlast hkeep =>
    have hnames := hperm.map Prod.fst
    refine .entries (fun f hf => hall f (hperm.mem_iff.2 hf)) (fun r limit h => ?_) fun r hr => ?_
    · obtain ⟨value, hmem, hlimit⟩ := (lastSpells_iff_of_nodup (hnames.nodup_iff.1 hnodup)).1 h
      exact hlast r limit
        ((lastSpells_iff_of_nodup hnodup).2 ⟨value, hperm.mem_iff.2 hmem, hlimit⟩)
    · exact hkeep r fun h => hr (hnames.mem_iff.1 h)

/-- **The grammar of configurations.** A configuration is accepted just if it gives limits by the
grammar, with these limits, and refused for the fault that the grammar names. The limits do not
depend on the order of the entries, no two of which have the same name. -/
theorem ofJson_iff_grammar (config : Json) :
    (∀ limits, ofJson config = .ok limits ↔ Configures config limits) ∧
      (∀ err, ofJson config = .error err ↔ Refuses config err) ∧
      ∀ fields fields' : List (String × Json), config = .obj fields →
        (fields.map Prod.fst).Nodup → fields.Perm fields' → ∀ limits,
        ofJson config = .ok limits → ofJson (.obj fields') = .ok limits := by
  refine ⟨fun limits => ofJson_eq_ok, fun err => ofJson_eq_error, ?_⟩
  rintro fields fields' rfl hnodup hperm limits h
  exact ofJson_eq_ok.2 ((ofJson_eq_ok.1 h).perm hperm hnodup)

/-- Three entries in either order, of which two lift a bound, and a configuration with two
faults. -/
theorem ofJson_iff_grammar_reordered :
    let fields : List (String × Json) :=
      [("callTime", .int 10), ("scopeDepth", .null), ("strChars", .int 0)]
    let faulty : Json := .obj [("opCount", .int 5), ("ops", .int 1), ("varCount", .int (-1))]
    ((fields.map Prod.fst).Nodup ∧ fields.Perm fields.reverse) ∧
      (∃ limits, Configures (.obj fields) limits ∧ ofJson (.obj fields.reverse) = .ok limits ∧
        limits.bound .callTime = some 10 ∧ limits.bound (.counter .scopeDepth) = none ∧
        limits.bound (.counter .strChars) = none ∧
        limits.bound (.counter .opCount) = some 1000) ∧
      Refuses faulty (.invalidLimit "ops") := by
  intro fields faulty
  have hnodup : (fields.map Prod.fst).Nodup := by decide
  have hperm : fields.Perm fields.reverse := (reverse_perm fields).symm
  obtain ⟨hok, -, horder⟩ := ofJson_iff_grammar (.obj fields)
  obtain ⟨-, herror, -⟩ := ofJson_iff_grammar faulty
  obtain ⟨limits, hlimits⟩ : ∃ limits, ofJson (.obj fields) = .ok limits := ⟨_, rfl⟩
  refine ⟨⟨hnodup, hperm⟩, ⟨limits, (hok limits).1 hlimits,
    horder fields _ rfl hnodup hperm limits hlimits, ?_⟩, (herror _).1 rfl⟩
  cases hlimits
  exact ⟨rfl, rfl, rfl, rfl⟩

end Limits

end OpTree
