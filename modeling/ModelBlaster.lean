import ModelBlaster.Ingest.Acceptance
import ModelBlaster.Main.Deadlock
import ModelBlaster.Main.Capture
import ModelBlaster.Runtime.ForkJoinProgress
import ModelBlaster.Skeleton.WeightPlan
import ModelBlaster.Rewrite.RoundTrip
import ModelBlaster.Rewrite.PatchReplay
import ModelBlaster.Rewrite.Derivation
import ModelBlaster.Extract.PerChannel
import ModelBlaster.Extract.ScaleConsistency
import ModelBlaster.Rewrite.LayoutRuns
import ModelBlaster.Kernels.ConvCandidates
import ModelBlaster.Concurrency.CaptureSound
import ModelBlaster.GraphOpt.Resume
import ModelBlaster.Rewrite.GraphVerify
import ModelBlaster.Precision.PolicySound
import ModelBlaster.Cache.Rejection
import ModelBlaster.Composite.CompositeSound
import ModelBlaster.Rewrite.Split
import ModelBlaster.Skeleton.ChunkOrigin
import ModelBlaster.Lowering.MovementExact
import ModelBlaster.Rewrite.ShardHint
import ModelBlaster.Rewrite.LayoutFit
import ModelBlaster.Skeleton.ShardedConv
import ModelBlaster.Regions.Motifs
import ModelBlaster.Regions.WindowExact
import ModelBlaster.Regions.SeedSound
import ModelBlaster.RoundControl.Controller
import ModelBlaster.Extract.CastBoundary
import ModelBlaster.KernelFusion.SiblingFusion
import ModelBlaster.Scripts.Regroup
import ModelBlaster.Scripts.PeriodicPartition
import ModelBlaster.Scripts.ThreeWayLayout
import ModelBlaster.Ingest.SingleModelSound
import ModelBlaster.SearchFixes.RetriesBounded
import ModelBlaster.Precision.Bfloat16
