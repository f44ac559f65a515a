/-! # Configuration -/

namespace RelPlan

structure LogSettings where
  level : String := "info"
  dir : String := "logs"
  file : String := "relrewrite"
  maxFileSize : Nat := 100 * 1024 * 1024
  maxFiles : Nat := 5
  deriving DecidableEq, Repr

structure RewriteSettings where
  maxIterations : Nat := 100
  /-- Whether the first rule that fails ends the rewriting. -/
  failFast : Bool := true
  disabledRules : List String := []
  deriving DecidableEq, Repr

structure Config where
  log : LogSettings := {}
  rewrite : RewriteSettings := {}
  deriving DecidableEq, Repr

end RelPlan
