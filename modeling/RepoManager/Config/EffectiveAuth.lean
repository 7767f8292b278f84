import RepoManager.Config
import RepoManager.Library.SortedUnique

/-!
# Effective authentication

What `GetRepoAuth` returns, and what it leaves in the configuration it writes to.

A call completes the entry of its own repository and no other, and completing an entry again
changes nothing: the groups of the default were appended before, and `unique.Strings` absorbs them.
So every call in a history of calls returns what it would have returned on the loaded configuration.

The completion is not field-wise. When one of three fields is unset, all of them and the timeout
are those of the default; `getRepoAuth_fieldwise_iff` says when this is the same.
-/

namespace RepoManager

/-- One of the fields is unset that send `GetRepoAuth` to the default. -/
def Auth.Incomplete (auth : Auth) : Prop :=
  auth.server = [] ∨ auth.baseDN = [] ∨ auth.domain = []

instance (auth : Auth) : Decidable auth.Incomplete := inferInstanceAs (Decidable (_ ∨ _ ∨ _))

/-- The groups of a repository, completed from the default: only when there are some. -/
def completedGroups (unique : List ByteString → List ByteString) (groups others : List ByteString) :
    List ByteString :=
  if groups.length > 0 then unique (groups ++ others) else groups

/-- The authentication of a repository, completed from the default. -/
def Auth.completed (unique : List ByteString → List ByteString) (auth authDef : Auth) : Auth :=
  if auth.Incomplete then
    { authDef with groups := completedGroups unique auth.groups authDef.groups }
  else auth

/-- Complete an entry from the default, if there is one. -/
def Repo.completed (unique : List ByteString → List ByteString) (authDef : Option Auth)
    (repo : Repo) : Repo :=
  match repo.auth, authDef with
  | some auth, some authDef => { repo with auth := some (auth.completed unique authDef) }
  | _, _ => repo

/-- What an entry and the default make of a call; the entry may be `nil`. -/
def effectiveAuth (unique : List ByteString → List ByteString) (authDef : Option Auth) :
    Option Repo → Except Panic (Option Auth)
  | none => .error .nilDereference
  | some repo =>
    match repo.auth, authDef with
    | none, _ => .ok authDef
    | some auth, some authDef => .ok (some (auth.completed unique authDef))
    | some auth, none => if auth.Incomplete then .error .nilDereference else .ok (some auth)

section Completed

variable {unique : List ByteString → List ByteString} (hunique : SortsUnique unique)

include hunique

/-- The groups of the default are absorbed when they are appended again. -/
theorem completedGroups_completedGroups (groups others : List ByteString) :
    completedGroups unique (completedGroups unique groups others) others =
      completedGroups unique groups others := by
  by_cases hgroups : groups.length > 0
  · have honce : completedGroups unique groups others = unique (groups ++ others) := if_pos hgroups
    rw [honce, completedGroups, hunique.absorb, ite_self]
  · have honce : completedGroups unique groups others = groups := if_neg hgroups
    rw [honce, honce]

/-- Completing again changes nothing. -/
theorem Auth.completed_completed (auth authDef : Auth) :
    (auth.completed unique authDef).completed unique authDef = auth.completed unique authDef := by
  by_cases hinc : auth.Incomplete
  · have honce : auth.completed unique authDef =
        { authDef with groups := completedGroups unique auth.groups authDef.groups } := if_pos hinc
    rw [honce, Auth.completed, completedGroups_completedGroups hunique, ite_self]
  · have hsame : auth.completed unique authDef = auth := if_neg hinc
    rw [hsame, hsame]

/-- An entry that was completed needs no completion. -/
theorem Repo.completed_completed (authDef : Option Auth) (repo : Repo) :
    (repo.completed unique authDef).completed unique authDef = repo.completed unique authDef := by
  obtain ⟨dir, name, repoRootPath, own⟩ := repo
  cases own with
  | none => rfl
  | some auth =>
    cases authDef with
    | none => rfl
    | some authDef => simp only [Repo.completed, Auth.completed_completed hunique]

/-- A completed entry has the effective authentication it had. -/
theorem effectiveAuth_completed (authDef : Option Auth) (held : Option Repo) :
    effectiveAuth unique authDef (held.map (Repo.completed unique authDef)) =
      effectiveAuth unique authDef held := by
  cases held with
  | none => rfl
  | some repo =>
    obtain ⟨dir, name, repoRootPath, own⟩ := repo
    cases own with
    | none => rfl
    | some auth =>
      cases authDef with
      | none => rfl
      | some authDef =>
        simp only [Option.map_some, Repo.completed, effectiveAuth,
          Auth.completed_completed hunique]

end Completed

namespace Config

/-- The configuration that a call leaves, a panic included. -/
def afterCall (unique : List ByteString → List ByteString) (config : Config)
    (repoName : ByteString) : Config :=
  match config.getRepoAuth unique repoName with
  | .ok (_, after) => after
  | .error _ => config

/-- The configuration after a history of calls. -/
def afterCalls (unique : List ByteString → List ByteString) (config : Config)
    (calls : List ByteString) : Config :=
  calls.foldl (afterCall unique) config

section Calls

variable {unique : List ByteString → List ByteString} {config : Config}
  {repositories : Repositories}

/-- The entry that a call reads. -/
theorem entry_eq (hsome : config.repositories = some repositories) (repoName : ByteString) :
    config.entry repoName = deref (repositories.entries.lookup repoName).join := by
  rw [entry, hsome]
  rfl

/-- What a call does, in terms of the entry and the default. -/
theorem getRepoAuth_eq (hsome : config.repositories = some repositories) (repoName : ByteString) :
    config.getRepoAuth unique repoName =
      match (repositories.entries.lookup repoName).join with
      | none => .error .nilDereference
      | some repo =>
        match repo.auth, repositories.auth with
        | none, authDef => .ok (authDef, config)
        | some auth, some authDef =>
          .ok (some (auth.completed unique authDef),
            if auth.Incomplete then config.setAuth repoName (auth.completed unique authDef)
            else config)
        | some auth, none =>
          if auth.Incomplete then .error .nilDereference else .ok (some auth, config) := by
  obtain ⟨execReindex, baseRepoRootPath, authDef, entries⟩ := repositories
  rw [getRepoAuth, entry_eq hsome, hsome]
  cases (entries.lookup repoName).join with
  | none => rfl
  | some repo =>
    obtain ⟨dir, name, repoRootPath, own⟩ := repo
    cases own with
    | none => rfl
    | some auth =>
      change (if auth.Incomplete then _ else _) = _
      cases authDef with
      | none => rfl
      | some authDef =>
        by_cases hinc : auth.Incomplete
        · simp only [if_pos hinc, Auth.completed]
          rfl
        · simp only [if_neg hinc, Auth.completed]
          rfl

/-- The result of a call is the effective authentication of the entry. -/
theorem map_fst_getRepoAuth (hsome : config.repositories = some repositories)
    (repoName : ByteString) : (config.getRepoAuth unique repoName).map Prod.fst =
      effectiveAuth unique repositories.auth (repositories.entries.lookup repoName).join := by
  rw [getRepoAuth_eq hsome]
  cases (repositories.entries.lookup repoName).join with
  | none => rfl
  | some repo =>
    simp only [effectiveAuth]
    cases repo.auth with
    | none => rfl
    | some auth =>
      cases repositories.auth with
      | none => by_cases hinc : auth.Incomplete <;> simp only [hinc, if_true, if_false] <;> rfl
      | some authDef => rfl

/-- A call leaves the server section. -/
theorem server_of_getRepoAuth {repoName : ByteString} {result : Option Auth × Config}
    (h : config.getRepoAuth unique repoName = .ok result) : result.2.server = config.server := by
  cases hsome : config.repositories with
  | none =>
    simp only [getRepoAuth, entry, hsome] at h
    exact nomatch h
  | some repositories =>
    have hset (auth : Auth) : (config.setAuth repoName auth).server = config.server := by
      unfold setAuth
      split <;> rfl
    rw [getRepoAuth_eq hsome] at h
    split at h
    · exact nomatch h
    · split at h
      · rw [← Except.ok.inj h]
      · rw [← Except.ok.inj h]
        dsimp only
        split
        · exact hset _
        · rfl
      · split at h
        · exact nomatch h
        · rw [← Except.ok.inj h]

/-- The repositories after some calls: those of the repositories called are completed. -/
structure CompletedFor (unique : List ByteString → List ByteString) (calls : List ByteString)
    (before after : Repositories) : Prop where
  auth_eq : after.auth = before.auth
  base_eq : after.baseRepoRootPath = before.baseRepoRootPath
  lookup_eq : ∀ repoName, after.entries.lookup repoName =
    if repoName ∈ calls then
      (before.entries.lookup repoName).map (Option.map (Repo.completed unique before.auth))
    else before.entries.lookup repoName

/-- Writing an authentication into an entry that is there. -/
theorem setAuth_eq (hsome : config.repositories = some repositories) {repoName : ByteString}
    {repo : Repo} (hentry : (repositories.entries.lookup repoName).join = some repo) (auth : Auth) :
    config.setAuth repoName auth =
      { config with
        repositories := some
          { repositories with
            entries := repositories.entries.insert repoName
              (some { repo with auth := some auth }) } } := by
  rw [setAuth, entry_eq hsome, hentry, hsome]
  rfl

/-- Where completing the entry changes nothing, nothing has to be written. -/
theorem completedFor_self {repoName : ByteString}
    (hsame : (repositories.entries.lookup repoName).map
        (Option.map (Repo.completed unique repositories.auth)) =
      repositories.entries.lookup repoName) :
    CompletedFor unique [repoName] repositories repositories where
  auth_eq := rfl
  base_eq := rfl
  lookup_eq other := by
    split
    · next hother => rw [List.mem_singleton.mp hother, hsame]
    · rfl

/-- Only an incomplete authentication with a default is written. -/
theorem afterCall_eq (hsome : config.repositories = some repositories) (repoName : ByteString) :
    config.afterCall unique repoName =
      match (repositories.entries.lookup repoName).join with
      | none => config
      | some repo =>
        match repo.auth, repositories.auth with
        | some auth, some authDef =>
          if auth.Incomplete then config.setAuth repoName (auth.completed unique authDef)
          else config
        | _, _ => config := by
  rw [afterCall, getRepoAuth_eq hsome]
  obtain ⟨execReindex, baseRepoRootPath, authDef, entries⟩ := repositories
  cases (entries.lookup repoName).join with
  | none => rfl
  | some repo =>
    obtain ⟨dir, name, repoRootPath, own⟩ := repo
    cases own with
    | none => rfl
    | some auth =>
      cases authDef with
      | none => by_cases hinc : auth.Incomplete <;> simp only [hinc, if_true, if_false]
      | some authDef => rfl

/-- A call completes the entry of its own repository. -/
theorem completedFor_afterCall (hsome : config.repositories = some repositories)
    (repoName : ByteString) : ∃ after, (config.afterCall unique repoName).repositories = some after ∧
      CompletedFor unique [repoName] repositories after := by
  rw [afterCall_eq hsome]
  cases hentry : (repositories.entries.lookup repoName).join with
  | none =>
    refine ⟨repositories, hsome, completedFor_self ?_⟩
    cases hlookup : repositories.entries.lookup repoName with
    | none => rfl
    | some held =>
      rw [hlookup, Option.join_some] at hentry
      rw [hentry]
      rfl
  | some repo =>
    have hlookup := Option.join_eq_some_iff.mp hentry
    -- an entry that is not written is complete, or has nothing to be completed from
    have hkeep (hrepo : repo.completed unique repositories.auth = repo) :
        CompletedFor unique [repoName] repositories repositories := by
      apply completedFor_self
      rw [hlookup, Option.map_some, Option.map_some, hrepo]
    dsimp only
    unfold Repo.completed at hkeep
    split
    · next auth authDef hauth hdef =>
      rw [hauth, hdef] at hkeep
      split
      · next hinc =>
        rw [setAuth_eq hsome hentry]
        refine ⟨_, rfl, rfl, rfl, fun other => ?_⟩
        change (repositories.entries.insert repoName _).lookup other = _
        by_cases hother : other = repoName
        · rw [if_pos (List.mem_singleton.mpr hother), hother, AList.lookup_insert, hlookup, hdef]
          simp only [Option.map_some, Repo.completed, hauth]
        · rw [if_neg fun hmem => hother (List.mem_singleton.mp hmem),
            AList.lookup_insert_ne hother]
      · next hinc => 
        refine ⟨repositories, hsome, hkeep ?_⟩
        simp only [Auth.completed, if_neg hinc, ← hauth]
    · next hnone => 
      refine ⟨repositories, hsome, hkeep ?_⟩
      split
      · next auth authDef hauth hdef => exact absurd hdef (hnone auth authDef hauth)
      · rfl

/-- A history of calls completes the entries of the repositories it calls. -/
theorem completedFor_afterCalls (hunique : SortsUnique unique)
    (hsome : config.repositories = some repositories) (calls : List ByteString) :
    ∃ after, (config.afterCalls unique calls).repositories = some after ∧
      CompletedFor unique calls repositories after := by
  induction calls using List.reverseRecOn with
  | nil =>
    refine ⟨repositories, hsome, rfl, rfl, fun repoName => ?_⟩
    rw [if_neg List.not_mem_nil]
  | append_singleton calls repoName ih =>
    obtain ⟨middle, hmiddle, hcalls⟩ := ih
    obtain ⟨after, hafter, hcall⟩ := @completedFor_afterCall unique _ _ hmiddle repoName
    rw [afterCalls, List.foldl_append, ← afterCalls]
    refine ⟨after, hafter, hcall.auth_eq.trans hcalls.auth_eq,
      hcall.base_eq.trans hcalls.base_eq, fun other => ?_⟩
    have htwice : (Option.map (Repo.completed unique repositories.auth)) ∘
        (Option.map (Repo.completed unique repositories.auth)) =
          Option.map (Repo.completed unique repositories.auth) := by
      funext held
      cases held with
      | none => rfl
      | some repo => exact congrArg some (Repo.completed_completed hunique _ repo)
    rw [hcall.lookup_eq, hcalls.auth_eq, hcalls.lookup_eq]
    simp only [List.mem_append]
    by_cases hcall : other ∈ [repoName] 
    · by_cases hbefore : other ∈ calls
      · simp only [hcall, hbefore, or_true, if_true, Option.map_map, htwice]
      · simp only [hcall, hbefore, or_true, if_true, if_false]
    · by_cases hbefore : other ∈ calls
      · simp only [hcall, hbefore, or_false, if_true, if_false]
      · simp only [hcall, hbefore, or_false, if_false]

/-- The result of every call is that of a call on the configuration before any of them. -/
theorem map_fst_getRepoAuth_afterCalls (hunique : SortsUnique unique)
    (hsome : config.repositories = some repositories) (calls : List ByteString)
    (repoName : ByteString) :
    ((config.afterCalls unique calls).getRepoAuth unique repoName).map Prod.fst =
      (config.getRepoAuth unique repoName).map Prod.fst := by
  obtain ⟨after, hafter, hcompleted⟩ := completedFor_afterCalls hunique hsome calls
  rw [map_fst_getRepoAuth hafter, map_fst_getRepoAuth hsome, hcompleted.auth_eq,
    hcompleted.lookup_eq]
  split
  · cases repositories.entries.lookup repoName with
    | none => rfl
    | some held => exact effectiveAuth_completed hunique repositories.auth held
  · rfl

end Calls

/-- The default of the sample: one server, and the group of its users. -/
def sampleDefault : Auth where
  baseDN := ascii "dc=example,dc=loc"
  domain := ascii "example.loc"
  server := ascii "example.loc"
  groups := [ascii "CN=repo_manager"]
  defaultTimeout := 3

/-- A repository with its own server and domain, but without a base. -/
def sampleRepo : Repo where
  dir := []
  name := ascii "1c"
  repoRootPath := []
  auth := some ⟨[], ascii "example2.loc", ascii "example2.loc", [], 0⟩

/-- A configuration with this repository. -/
def sampleRepositories : Repositories where
  execReindex := ascii "true"
  baseRepoRootPath := ascii "/srv"
  auth := some sampleDefault
  entries := AList.singleton (ascii "1c") (some sampleRepo)

/-- The configuration itself. -/
def sample : Config where
  server := ⟨[], ascii "/www", 3600, ascii "http://localhost:3001/"⟩
  repositories := some sampleRepositories

/-- In every history of calls, each call returns what a single call on the configuration as it was
loaded would return, the default stays as it is, and a further call leaves what other repositories
are configured with. -/
theorem getRepoAuth_stable (unique : List ByteString → List ByteString)
    (hunique : SortsUnique unique) (config : Config) (repositories : Repositories) (authDef : Auth)
    (hsome : config.repositories = some repositories) (hdef : repositories.auth = some authDef)
    (calls : List ByteString) (repoName : ByteString) :
    ((config.afterCalls unique calls).getRepoAuth unique repoName).map Prod.fst =
        (config.getRepoAuth unique repoName).map Prod.fst ∧
      ((config.afterCalls unique calls).repositories.bind Repositories.auth) = some authDef ∧
      ∀ other, other ≠ repoName →
        (config.afterCalls unique (calls ++ [repoName])).entry other =
            (config.afterCalls unique calls).entry other ∧
          ((config.afterCalls unique (calls ++ [repoName])).getRepoAuth unique other).map Prod.fst =
            ((config.afterCalls unique calls).getRepoAuth unique other).map Prod.fst := by
  obtain ⟨middle, hmiddle, hcalls⟩ := completedFor_afterCalls hunique hsome calls
  refine ⟨map_fst_getRepoAuth_afterCalls hunique hsome calls repoName, ?_, ?_⟩
  · rw [hmiddle, Option.bind_some, hcalls.auth_eq, hdef]
  · intro other hother
    obtain ⟨after, hafter, hcall⟩ := @completedFor_afterCall unique _ _ hmiddle repoName
    have hlast : config.afterCalls unique (calls ++ [repoName]) =
        (config.afterCalls unique calls).afterCall unique repoName := List.foldl_append ..
    have hlookup := hcall.lookup_eq other
    rw [if_neg fun hmem => hother (List.mem_singleton.mp hmem)] at hlookup
    rw [hlast, entry_eq hafter, entry_eq hmiddle, map_fst_getRepoAuth hafter,
      map_fst_getRepoAuth hmiddle, hcall.auth_eq, hlookup]
    exact ⟨rfl, rfl⟩

/-- A repository that adds a group to the default, and one with a group of its own. -/
def sampleGroups : Repositories :=
  { sampleRepositories with
    entries := (AList.singleton (ascii "1c")
      (some { sampleRepo with auth := some ⟨[], [], [], [ascii "CN=users"], 0⟩ })).insert
        (ascii "kes") (some { sampleRepo with auth := some ⟨[], [], [], [ascii "CN=kes"], 0⟩ }) }

/-- The groups of the default are added once, however often a repository is asked for, and only to
the groups of that repository. -/
theorem sample_stable :
    let config : Config := { sample with repositories := some sampleGroups }
    let calls := [ascii "1c", ascii "kes", ascii "1c"]
    ((config.afterCalls sortUnique calls).getRepoAuth sortUnique (ascii "1c")).map Prod.fst =
        .ok (some { sampleDefault with groups := [ascii "CN=repo_manager", ascii "CN=users"] }) ∧
      ((config.afterCalls sortUnique calls).repositories.bind Repositories.auth) =
        some sampleDefault ∧
      ((config.afterCalls sortUnique (calls ++ [ascii "1c"])).getRepoAuth sortUnique
          (ascii "kes")).map Prod.fst =
        .ok (some { sampleDefault with groups := [ascii "CN=kes", ascii "CN=repo_manager"] }) := by
  intro config calls
  obtain ⟨hsame, hdef, -⟩ := getRepoAuth_stable sortUnique sortsUnique_sortUnique config _ _ rfl
    rfl calls (ascii "1c")
  obtain ⟨hkes, -, -⟩ := getRepoAuth_stable sortUnique sortsUnique_sortUnique config _ _ rfl
    rfl (calls ++ [ascii "1c"]) (ascii "kes")
  exact ⟨hsame.trans rfl, hdef, hkes.trans rfl⟩

/-! ## The fallback, field by field -/

/-- The law of a field-wise fallback: a field that is set is kept, one that is not is taken from
the default, and the groups of an incomplete authentication are those of both. -/
@[mk_iff]
structure FieldwiseFallback (authDef auth result : Auth) : Prop where
  server : result.server = if auth.server = [] then authDef.server else auth.server
  domain : result.domain = if auth.domain = [] then authDef.domain else auth.domain
  baseDN : result.baseDN = if auth.baseDN = [] then authDef.baseDN else auth.baseDN
  defaultTimeout : result.defaultTimeout =
    if auth.defaultTimeout = 0 then authDef.defaultTimeout else auth.defaultTimeout
  groups : auth.Incomplete → ∀ group, group ∈ result.groups ↔
    group ∈ auth.groups ∨ group ∈ authDef.groups

/-- When the joint decision agrees with the law: an incomplete authentication sets no field to
another value than the default and lists groups if the default does; a complete one sets the
timeout if the default does. -/
def FallbackAgrees (authDef auth : Auth) : Prop :=
  (auth.Incomplete →
    (auth.server = [] ∨ auth.server = authDef.server) ∧
      (auth.domain = [] ∨ auth.domain = authDef.domain) ∧
      (auth.baseDN = [] ∨ auth.baseDN = authDef.baseDN) ∧
      (auth.defaultTimeout = 0 ∨ auth.defaultTimeout = authDef.defaultTimeout) ∧
      (auth.groups = [] → authDef.groups = [])) ∧
  (¬ auth.Incomplete → auth.defaultTimeout = 0 → authDef.defaultTimeout = 0)

instance (authDef auth : Auth) : Decidable (FallbackAgrees authDef auth) :=
  inferInstanceAs (Decidable (_ ∧ _))

/-- A field that is replaced follows the law when it was unset, or the same. -/
theorem replaced_eq_iff {α : Type} [DecidableEq α] (own other unset : α) :
    (other = if own = unset then other else own) ↔ own = unset ∨ own = other := by
  by_cases hunset : own = unset
  · rw [if_pos hunset]
    exact ⟨fun _ => Or.inl hunset, fun _ => rfl⟩
  · rw [if_neg hunset, or_iff_right hunset, eq_comm]

/-- A field that is kept follows the law when it was set, or the other is unset too. -/
theorem kept_eq_iff {α : Type} [DecidableEq α] (own other unset : α) :
    (own = if own = unset then other else own) ↔ (own = unset → other = unset) := by
  by_cases hunset : own = unset
  · rw [if_pos hunset, hunset, eq_comm]
    exact ⟨fun h _ => h, fun h => h rfl⟩
  · rw [if_neg hunset]
    exact ⟨fun _ h => absurd h hunset, fun _ => rfl⟩

/-- The completed groups are those of both, unless only the default has some. -/
theorem mem_completedGroups_iff {unique : List ByteString → List ByteString}
    (hunique : SortsUnique unique) (groups others : List ByteString) :
    (∀ group, group ∈ completedGroups unique groups others ↔ group ∈ groups ∨ group ∈ others) ↔
      (groups = [] → others = []) := by
  cases groups with
  | nil =>
    change (∀ group, group ∈ [] ↔ group ∈ [] ∨ group ∈ others) ↔ _
    simp only [List.not_mem_nil, false_or, false_iff, true_implies, List.eq_nil_iff_forall_not_mem]
  | cons head rest =>
    have happend : completedGroups unique (head :: rest) others = unique (head :: rest ++ others) :=
      if_pos (Nat.zero_lt_succ _)
    refine ⟨fun _ h => absurd h (List.cons_ne_nil _ _), fun _ group => ?_⟩
    rw [happend, hunique.mem_iff, List.mem_append]

/-- The completed authentication follows the law exactly when the joint decision agrees with it. -/
theorem fieldwiseFallback_completed_iff {unique : List ByteString → List ByteString}
    (hunique : SortsUnique unique) (authDef auth : Auth) :
    FieldwiseFallback authDef auth (auth.completed unique authDef) ↔
      FallbackAgrees authDef auth := by
  rw [fieldwiseFallback_iff, FallbackAgrees]
  by_cases hinc : auth.Incomplete
  · have hreplaced : auth.completed unique authDef =
        { authDef with groups := completedGroups unique auth.groups authDef.groups } := if_pos hinc
    simp only [hreplaced, replaced_eq_iff, mem_completedGroups_iff hunique, hinc, true_implies,
      not_true, false_implies, and_true]
  · have hkept : auth.completed unique authDef = auth := if_neg hinc
    have hset : auth.server ≠ [] ∧ auth.baseDN ≠ [] ∧ auth.domain ≠ [] := by
      simpa only [Auth.Incomplete, not_or] using hinc
    simp only [hkept, kept_eq_iff, hset, hinc, false_implies, true_and, and_true, not_false_iff,
      true_implies, if_false]

/-- For a repository with its own authentication and a default, the result of a call follows the
law exactly when the joint decision of the code agrees with it. -/
theorem getRepoAuth_fieldwise_iff (unique : List ByteString → List ByteString)
    (hunique : SortsUnique unique) (config : Config) (repositories : Repositories)
    (authDef auth : Auth) (repo : Repo) (repoName : ByteString)
    (hsome : config.repositories = some repositories) (hdef : repositories.auth = some authDef)
    (hentry : repositories.entries.lookup repoName = some (some repo))
    (hauth : repo.auth = some auth) :
    (∃ result after, config.getRepoAuth unique repoName = .ok (some result, after) ∧
        FieldwiseFallback authDef auth result) ↔ FallbackAgrees authDef auth := by
  rw [← fieldwiseFallback_completed_iff hunique, getRepoAuth_eq hsome, hentry, hdef]
  simp only [Option.join_some, hauth, Except.ok.injEq, Prod.mk.injEq, Option.some.injEq,
    ↓existsAndEq, true_and]

/-- The server and the domain of the repository are replaced by those of the default, and its
users are left without groups. -/
theorem sample_not_fieldwise :
    (sample.getRepoAuth sortUnique (ascii "1c")).map Prod.fst =
        .ok (some { sampleDefault with groups := [] }) ∧
      ¬ ∃ result after, sample.getRepoAuth sortUnique (ascii "1c") = .ok (some result, after) ∧
        FieldwiseFallback sampleDefault ⟨[], ascii "example2.loc", ascii "example2.loc", [], 0⟩
          result := by
  have hresult : (sample.getRepoAuth sortUnique (ascii "1c")).map Prod.fst =
      .ok (some { sampleDefault with groups := [] }) := rfl
  refine ⟨hresult, ?_⟩
  rintro ⟨result, after, hcall, hlaw⟩
  rw [hcall] at hresult
  obtain rfl := Option.some.inj (Except.ok.inj hresult)
  exact absurd hlaw.server (by decide)

/-- The law holds of a repository that sets nothing but groups. -/
theorem sample_fieldwise_iff :
    ∃ result after,
      ({ sample with repositories := some sampleGroups } : Config).getRepoAuth sortUnique
        (ascii "1c") = .ok (some result, after) ∧
      FieldwiseFallback sampleDefault ⟨[], [], [], [ascii "CN=users"], 0⟩ result := by
  apply (getRepoAuth_fieldwise_iff sortUnique sortsUnique_sortUnique _ _ sampleDefault _ _
    (ascii "1c") rfl rfl rfl rfl).mpr
  decide

end Config

end RepoManager
