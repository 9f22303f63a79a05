import OpTree.Proofs.Evaluation.Blame
import OpTree.Proofs.Session.Basic

/-!
# What a lookup answers

A lookup is reached through its handle, by whoever has a copy of it: the program that appends to it
and sets it, and the call tables it was put into. Its answer to a name is the value of the last
entry of that name among those in force (`Command.inForce`), which are all that were taken over
since the entries were replaced last. An entry without a valid value stands for null, and so do
names without any entry. Hence a lookup never answers with a number that is not finite, and no
evaluation can blame it for its value.

Main statement: `Session.lookup_after`. The invariant behind it, `Lookups.Holds`, is kept by every
command (`Session.holds_perform`).
-/

namespace OpTree

/-! ### Entries -/

namespace Lookup

/-- What the last entry of a name stands for: its value, or null if that is not valid. -/
def lastValue (entries : List (String × Scalar)) (name : String) : Scalar :=
  match entries.reverse.lookup name with
  | some value => if value.isValid then value else .null
  | none => .null

theorem isValid_lastValue (entries : List (String × Scalar)) (name : String) :
    (lastValue entries name).isValid := by
  rw [lastValue]
  split
  · split
    · assumption
    · rfl
  · rfl

theorem append_append (lookup : Lookup) (entries new : List (String × Scalar)) :
    lookup.append (entries ++ new) = (lookup.append entries).append new :=
  List.foldl_append

/-- An entry decides on its own name. -/
theorem get_put (lookup : Lookup) (entry : String × Scalar) (name : String) :
    (lookup.put entry).get name =
      if name = entry.1 then if entry.2.isValid then entry.2 else .null else lookup.get name := by
  obtain ⟨key, value⟩ := entry
  rw [put]
  cases hnull : value.isNull <;> cases hvalid : value.isValid <;>
    by_cases hn : name = key <;> simp [get, NameMap.find?_erase, NameMap.find?_insert, hn]
  -- what is left is the entry of a null
  cases value <;> cases hnull
  rfl

theorem get_append (lookup : Lookup) (entries : List (String × Scalar)) (name : String) :
    (lookup.append entries).get name =
      match entries.reverse.lookup name with
      | some value => if value.isValid then value else .null
      | none => lookup.get name := by
  induction entries generalizing lookup with
  | nil => rfl
  | cons entry rest ih =>
    obtain ⟨key, value⟩ := entry
    change ((lookup.put (key, value)).append rest).get name = _
    rw [ih, List.reverse_cons, List.lookup_append]
    cases rest.reverse.lookup name with
    | some value => rfl
    | none =>
      rw [get_put]
      by_cases hn : name = key
      · simp [hn]
      · simp [List.lookup_cons, hn, beq_eq_false_iff_ne.2 hn]

/-- A lookup that starts without entries has the last value of each name. -/
theorem get_empty_append (entries : List (String × Scalar)) (name : String) :
    (empty.append entries).get name = lastValue entries name :=
  get_append empty entries name

end Lookup

/-! ### Handles -/

namespace Lookups

variable {all : Lookups} {handle other : LookupHandle} {entries : List (String × Scalar)}

/-- There is a lookup behind the handle, and these are its entries in force. -/
structure Holds (all : Lookups) (handle : LookupHandle) (entries : List (String × Scalar)) :
    Prop where
  lt : handle.index < all.lookups.size
  eq : all.lookup handle = Lookup.empty.append entries

theorem holds_create (all : Lookups) (entries : List (String × Scalar)) :
    (all.create entries).2.Holds (all.create entries).1 entries where
  lt := by simp [create]
  eq := by simp [create, lookup]

namespace Holds

/-- A lookup that is created later is another one. -/
theorem create (h : all.Holds handle entries) (new : List (String × Scalar)) :
    (all.create new).2.Holds handle entries where
  lt := by
    rw [Lookups.create, Array.size_push]
    exact Nat.lt_succ_of_lt h.lt
  eq := by
    rw [← h.eq]
    simp [Lookups.create, lookup, Array.getElem?_push, Nat.ne_of_lt h.lt]

/-- A change of what is behind a handle is a change of the entries of this handle alone. -/
private theorem replace (h : all.Holds handle entries) {new : Lookup}
    {kept : List (String × Scalar)} (hself : other = handle → new = Lookup.empty.append kept)
    (hother : other ≠ handle → kept = entries) :
    (Lookups.mk (all.lookups.setIfInBounds other.index new)).Holds handle kept where
  lt := by simpa using h.lt
  eq := by
    by_cases ho : other = handle
    · subst ho
      simp [lookup, h.lt, hself rfl]
    · have hne : other.index ≠ handle.index := fun hi => ho (congrArg LookupHandle.mk hi)
      rw [hother ho, ← h.eq]
      simp [lookup, hne]

theorem append (h : all.Holds handle entries) (other : LookupHandle)
    (new : List (String × Scalar)) :
    (all.append other new).Holds handle (if other = handle then entries ++ new else entries) := by
  refine h.replace ?_ fun ho => if_neg ho
  rintro rfl
  rw [if_pos rfl, h.eq, Lookup.append_append]

theorem set (h : all.Holds handle entries) (other : LookupHandle) (new : List (String × Scalar)) :
    (all.set other new).Holds handle (if other = handle then new else entries) := by
  refine h.replace ?_ fun ho => if_neg ho
  rintro rfl
  rw [if_pos rfl]

/-- A lookup answers to its name with the last value that is in force. -/
theorem reply (h : all.Holds handle entries) (history : List Invocation) (name : String) :
    (HostCall.lookup handle).reply all history [.str name] =
      .answer 0 (.ok (Lookup.lastValue entries name)) := by
  rw [← Lookup.get_empty_append, ← h.eq]
  rfl

/-- A lookup only answers with valid values, whatever it is called with. -/
theorem isValid_of_reply (h : all.Holds handle entries) {history : List Invocation}
    {args : List Scalar} {delay : Nat} {value : Scalar}
    (hreply : (HostCall.lookup handle).reply all history args = .answer delay (.ok value)) :
    value.isValid := by
  rw [HostCall.reply, h.eq] at hreply
  cases hl : HostCall.lookUp (Lookup.empty.append entries) args with
  | error cause =>
    rw [hl] at hreply
    cases hreply
  | ok found =>
    rw [hl] at hreply
    obtain rfl : found = value := by
      injection hreply with _ hok
      exact Except.ok.inj hok
    rw [HostCall.lookUp.eq_def] at hl
    split at hl
    · rename_i name
      rw [Lookup.get_empty_append] at hl
      exact Except.ok.inj hl ▸ Lookup.isValid_lastValue entries name
    · exact Except.ok.inj hl ▸ rfl
    · cases hl

end Holds

end Lookups

/-! ### Commands -/

/-- The entries of a lookup that are in force one command later, in order. -/
def Command.keep (handle : LookupHandle) (entries : List (String × Scalar)) :
    Command → List (String × Scalar)
  | .append other new => if other = handle then entries ++ new else entries
  | .set other new => if other = handle then new else entries
  | .insert .. | .extend .. | .copy .. | .create _ | .evaluate _ => entries

/-- The entries of a lookup that are in force after commands, in order: all since those of the last
replacement, which are among them. -/
def Command.inForce (handle : LookupHandle) (entries : List (String × Scalar))
    (commands : List Command) : List (String × Scalar) :=
  commands.foldl (Command.keep handle) entries

namespace Session

variable {s : Session} {handle : LookupHandle} {entries : List (String × Scalar)}

/-- **One command.** A lookup holds its entries in force. -/
theorem holds_perform (h : s.lookups.Holds handle entries) (command : Command) :
    (s.perform command).2.lookups.Holds handle (command.keep handle entries) := by
  cases command with
  | insert place name call =>
    by_cases hn : name = ""
    · subst hn
      exact h
    · rw [perform_insert s place hn]
      exact h
  | extend | copy | evaluate => exact h
  | create new => exact h.create new
  | append other new => exact h.append other new
  | set other new => exact h.set other new

/-- **All commands.** A lookup holds its entries in force. -/
theorem holds_after (h : s.lookups.Holds handle entries) (commands : List Command) :
    (s.after commands).lookups.Holds handle (Command.inForce handle entries commands) := by
  induction commands generalizing s entries with
  | nil => exact h
  | cons command rest ih => exact ih (holds_perform h command)

/-- **A lookup answers with the last value in force**, through whichever copy of its handle it was
changed, and through whichever it is called. It never answers with a value that is not valid, and so
no evaluation that finds it under a name blames the call of that name for its value. -/
theorem lookup_after (before : List Command) (entries : List (String × Scalar))
    (later : List Command) :
    ∃ handle created, (start.after before).perform (.create entries) = (.created handle, created) ∧
      let s := created.after later
      (∀ history name, (HostCall.lookup handle).reply s.lookups history [.str name] =
        .answer 0 (.ok (Lookup.lastValue (Command.inForce handle entries later) name))) ∧
      (∀ history args delay value, (HostCall.lookup handle).reply s.lookups history args =
        .answer delay (.ok value) → value.isValid) ∧
      ∀ job name node, (s.host job).find? name = some (.lookup handle) →
        (s.run job).outcome ≠ .error (.invalidCallReturn node name) := by
  let created := ((start.after before).perform (.create entries)).2
  have hcreated : created.lookups.Holds _ entries := Lookups.holds_create _ entries
  have hs := holds_after hcreated later
  refine ⟨_, created, rfl, hs.reply, fun _ _ _ _ hreply => hs.isValid_of_reply hreply, ?_⟩
  intro job name node hfind hfailed
  rw [run, Graph.run] at hfailed
  obtain ⟨call, hcall, history, args, delay, value, hreply, hvalue⟩ :=
    Expr.mayGiveInvalid_of_runWithin hfailed
  obtain rfl : HostCall.lookup _ = call := Option.some.inj (hfind.symm.trans hcall)
  exact absurd (hs.isValid_of_reply hreply) (Bool.eq_false_iff.1 hvalue)

/-- An entry that is removed and one that is given twice, in a lookup that a table names. -/
theorem lookup_after_removed :
    let later : List Command := [.insert 0 "unit" (.lookup ⟨0⟩),
      .append ⟨0⟩ [("length", .null), ("mass", .bool true), ("mass", .str "gram")]]
    let s := (start.perform (.create [("length", .str "metre")])).2.after later
    let job : Job :=
      ⟨.ofExpr (.op () .call [.lit () (.str "unit"), .lit () (.str "mass")]), .unlimited, .timed, 0,
        none⟩
    (HostCall.lookup ⟨0⟩).reply s.lookups [] [.str "length"] = .answer 0 (.ok .null) ∧
      (HostCall.lookup ⟨0⟩).reply s.lookups [] [.str "mass"] = .answer 0 (.ok (.str "gram")) ∧
      (s.host job).find? "unit" = some (.lookup ⟨0⟩) ∧
      (s.run job).outcome ≠ .error (.invalidCallReturn ⟨2⟩ "unit") := by
  intro later s job
  obtain ⟨handle, created, hcreate, hreply, -, hblame⟩ :=
    lookup_after [] [("length", .str "metre")] later
  cases hcreate
  exact ⟨hreply [] "length", hreply [] "mass", rfl, hblame job "unit" ⟨2⟩ rfl⟩

end Session

end OpTree
