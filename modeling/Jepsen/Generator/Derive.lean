import Jepsen.Generator.Answers
import Jepsen.Library.Transition

/-!
# Calls on a generator

A generator is asked, updated and copied; each call leads to a new generator, and asking also leaves
the asked one changed.  `Calls` is the transition system of these calls on one tree, as `Answers`
describes them, and so includes every call of the code.
-/

namespace Jepsen

open Library
open GeneratorPtr (copyOne update)

inductive Call where
  | asked (ctx : Context) (a : Answer)
  | updated (ctx : Context) (event : Operation)
  | copied

inductive Calls : Lts GeneratorPtr Call
  | kept {g ctx a} (ha : Answers g ctx a) : Calls g (.asked ctx a) a.gen2
  | discarded {g ctx a} (ha : Answers g ctx a) : Calls g (.asked ctx a) a.self
  | updated {g ctx event g'} (h : update g ctx event = .ok g') : Calls g (.updated ctx event) g'
  | copied {g g'} (h : copyOne g = .ok g') : Calls g .copied g'

theorem Calls.of_op_kept {n : Nat} {g : GeneratorPtr} {ctx : Context} {draws draws' : Draws}
    {a : Answer} (h : op n g ctx draws = .ok (a, draws')) : Calls g (.asked ctx a) a.gen2 :=
  .kept (op_answers n _ _ _ _ _ h)

end Jepsen
