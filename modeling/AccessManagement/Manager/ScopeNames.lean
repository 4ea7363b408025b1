/-
  AccessManagement.Manager.ScopeNames — THE SCOPE IN A POLICY'S NAME.

  `doDeletePolicy` reads the scope of a policy back from its fully-qualified name, as what
  follows the first slash.  A version has no slash, and a name of the old pattern loses its
  slashes to `sanitize`; any other name keeps them.

  Main result: `scopeFromFqn_iff` — the scope comes back EXACTLY WHEN the name has no slash or
  matches the old pattern.
-/
import AccessManagement.Manager.Manager

namespace AccessManagement.Namer

/-- The pattern `^[^!*?\[\]{}]+$` of the names of resources, principals and roles. -/
def validName (name : String) : Bool :=
  name != "" && name.toList.all (fun c => c ∉ ['!', '*', '?', '[', ']', '\x7b', '\x7d'])

/-- The pattern `^[\w]*$` of versions (only a role policy may leave its version out). -/
def validVersion (version : String) : Bool :=
  version.toList.all (fun c => isIdentifierChar c && c != '.')

theorem slash_notMem_replaceInvalid (inRun : Bool) (cs : List Char) :
    '/' ∉ replaceInvalid inRun cs := by
  fun_induction replaceInvalid with
  | case1 => simp
  | case2 _ c _ hc ih =>
    have hne : '/' ≠ c := by
      rintro rfl
      cases hc
    simp [hne, ih]
  | case3 _ _ _ ih => exact ih
  | case4 _ _ _ _ _ ih => simp [ih]

/-- **Where `sanitize` leaves a slash.** -/
theorem slash_mem_sanitize_iff (v : String) :
    '/' ∈ (sanitize v).toList ↔ '/' ∈ v.toList ∧ matchesOldNamePattern v = false := by
  unfold sanitize
  split_ifs with hvalid hold
  · have hnot : '/' ∉ v.toList := by
      intro hmem
      rw [Bool.not_eq_true', List.any_eq_false] at hvalid
      exact hvalid '/' hmem rfl
    simp [hnot]
  · simp [slash_notMem_replaceInvalid, hold]
  · simp [hold]

theorem slash_notMem_sanitize_version {version : String} (h : validVersion version = true) :
    '/' ∉ (sanitize version).toList := by
  rw [slash_mem_sanitize_iff]
  rintro ⟨hmem, -⟩
  have hchar := List.all_eq_true.mp h '/' hmem
  revert hchar
  decide

/-- `ScopeFromFQN` of a policy's name: what follows a slash of the sanitised name is longer than
the scope. -/
theorem scopeFromFqn_policyFqn_iff {pfx version : String} (name scope : String)
    (hpfx : '/' ∉ pfx.toList) (hversion : '/' ∉ (sanitize version).toList) :
    scopeFromFqn (policyFqn pfx name version scope) = scope ↔ '/' ∉ (sanitize name).toList := by
  have hpass (l : List Char) (h : '/' ∉ l) : ∀ c ∈ l, decide (c ≠ '/') = true := by
    intro c hc
    rw [decide_eq_true_eq]
    rintro rfl
    exact h hc
  have hfqn : (policyFqn pfx name version scope).toList =
      (pfx.toList ++ ['.']) ++ ((sanitize name).toList ++ (('.' :: 'v' :: (sanitize version).toList) ++
        if scope = "" then [] else '/' :: scope.toList)) := by
    unfold policyFqn withScope
    split_ifs <;> simp
  unfold scopeFromFqn
  rw [hfqn, List.dropWhile_append_of_pos (hpass _ (by simpa using hpfx))]
  constructor
  · intro hscope hmem
    obtain ⟨before, after, hsplit, hfirst⟩ := List.eq_append_cons_of_mem hmem
    rw [hsplit, List.append_assoc, List.dropWhile_append_of_pos (hpass _ hfirst)] at hscope
    have hlen := congrArg String.length hscope
    rw [List.cons_append, List.dropWhile_cons_of_neg (by simp), List.drop_one, List.tail_cons,
      String.length_ofList, ← String.length_toList] at hlen
    split_ifs at hlen with hempty
    · simp [hempty] at hlen
    · simp at hlen
      omega
  · intro hname
    rw [List.dropWhile_append_of_pos (hpass _ hname),
      List.dropWhile_append_of_pos (hpass _ (by simpa using hversion))]
    split_ifs with hempty <;> simp [hempty]

/-- **THE SCOPE COMES BACK FROM THE NAME OF A POLICY EXACTLY WHEN the name of its resource,
principal or role has no slash or matches the old pattern.** -/
theorem scopeFromFqn_iff {version : String} (hversion : validVersion version = true)
    (name scope : String) : (scopeFromFqn (resourcePolicyFqn name version scope) = scope ↔
      '/' ∉ name.toList ∨ matchesOldNamePattern name = true) ∧
    (scopeFromFqn (principalPolicyFqn name version scope) = scope ↔
      '/' ∉ name.toList ∨ matchesOldNamePattern name = true) ∧
    (scopeFromFqn (rolePolicyFqn name version scope) = scope ↔
      '/' ∉ name.toList ∨ matchesOldNamePattern name = true) := by
  have hslash : '/' ∉ (sanitize name).toList ↔
      '/' ∉ name.toList ∨ matchesOldNamePattern name = true := by
    rw [slash_mem_sanitize_iff, not_and_or, Bool.not_eq_false]
  have hrole : validVersion (if version = "" then defaultVersion else version) = true := by
    split
    · decide
    · exact hversion
  rw [← hslash]
  refine ⟨scopeFromFqn_policyFqn_iff name scope (by decide) ?_,
    scopeFromFqn_policyFqn_iff name scope (by decide) ?_,
    scopeFromFqn_policyFqn_iff name scope (by decide) ?_⟩
  · exact slash_notMem_sanitize_version hversion
  · exact slash_notMem_sanitize_version hversion
  · exact slash_notMem_sanitize_version hrole

theorem scopeFromFqn_document :
    scopeFromFqn (resourcePolicyFqn "leave/request" "default" "acme") = "acme" :=
  (scopeFromFqn_iff (by decide) "leave/request" "acme").1.mpr
    (.inr (by decide))

/-- A name that starts with a digit keeps its slash: the rest of it is taken for the scope. -/
theorem scopeFromFqn_reads_name : validName "1/x" = true ∧ validVersion "default" = true ∧
    scopeFromFqn (resourcePolicyFqn "1/x" "default" "") = "x.vdefault" := by
  decide

end AccessManagement.Namer
