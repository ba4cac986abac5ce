import PrimaryElection.Lib.CInt

/-! The options of the candidate database, model_options.h and model_options.cpp.
Loading a configuration takes each value that the file has and the default of
each value that it lacks; nothing relates the values to each other. The options
of the underlying store are loaded by the store's own code. -/

namespace PrimaryElection.Core

open CInt

/-- The results that the tables and the loader return. -/
inductive Status where
  | ok
  | notFound
  | invalidData
  | corruption
  | ioError
  | other (code : ℕ)
  deriving DecidableEq

/-- The member of the store's options that the loader sets. -/
structure Options where
  maxTableLevel : I32
  deriving DecidableEq

structure ModelOptions extends Options where
  rpcPort : I32
  monitorPort : I32
  tableName : String
  intervalRecommendation : I32
  profileExpiredTime : I32
  maxCandidateSetSize : I32
  maxCandidateVideoSize : I32
  maxCandidateRegionSize : I32
  flushTimer : String
  serviceType : I32
  deriving DecidableEq

def ModelOptions.default (base : Options) : ModelOptions where
  toOptions := base
  rpcPort := i32 6200
  monitorPort := i32 16200
  tableName := "level_table"
  intervalRecommendation := i32 (1 * 24 * 60 * 60)
  profileExpiredTime := i32 (1 * 24 * 60 * 60)
  maxCandidateSetSize := i32 5000
  maxCandidateVideoSize := i32 10
  maxCandidateRegionSize := i32 10
  flushTimer := "23/day"
  serviceType := i32 0

/-- A configuration file as the parser sees it: it cannot be read, it does not
parse, or it gives values by name. -/
inductive Conf where
  | unreadable
  | malformed
  | parsed (lookupInt : String → Option I32) (lookupString : String → Option String)

/-- `fromConf`; the store's loader runs first. -/
def ModelOptions.fromConf (storeFromConf : Conf → Options → Status × Options) (conf : Conf)
    (opts : ModelOptions) : Status × ModelOptions :=
  let base := storeFromConf conf opts.toOptions
  if base.1 ≠ .ok then (base.1, { opts with toOptions := base.2 })
  else match conf with
    | .unreadable => (.ioError, { opts with toOptions := base.2 })
    | .malformed => (.corruption, { opts with toOptions := base.2 })
    | .parsed lookupInt lookupString => (.ok, {
        rpcPort := (lookupInt "rpc_port").getD (i32 6200)
        monitorPort := (lookupInt "monitor_port").getD (i32 16200)
        tableName := (lookupString "table_name").getD "level_table"
        maxTableLevel := (lookupInt "max_table_level").getD (i32 3)
        intervalRecommendation :=
          (lookupInt "interval_recommendation").getD (i32 (1 * 24 * 60 * 60))
        profileExpiredTime := (lookupInt "profile_expired_time").getD (i32 (1 * 24 * 60 * 60))
        maxCandidateSetSize := (lookupInt "max_candidate_set_size").getD (i32 5000)
        maxCandidateVideoSize := (lookupInt "max_candidate_video_size").getD (i32 10)
        maxCandidateRegionSize := (lookupInt "max_candidate_region_size").getD (i32 10)
        flushTimer := (lookupString "flush_timer").getD "23/day"
        serviceType := (lookupInt "service_type").getD (i32 0) })

theorem fromConf_empty (storeFromConf : Conf → Options → Status × Options) (opts : ModelOptions)
    {base : Options} (h : storeFromConf (.parsed (fun _ => none) fun _ => none) opts.toOptions =
      (.ok, base)) :
    ModelOptions.fromConf storeFromConf (.parsed (fun _ => none) fun _ => none) opts =
      (.ok, { ModelOptions.default base with maxTableLevel := i32 3 }) := by
  simp [ModelOptions.fromConf, ModelOptions.default, h]

end PrimaryElection.Core
