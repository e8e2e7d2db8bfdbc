import S3Cpp.Aws.Iam.Canonicalize.Injective
import S3Cpp.Aws.Iam.Canonicalize.Reference
import S3Cpp.Aws.Iam.Canonicalize.Stability
import S3Cpp.Aws.S3.Client.ListBuckets.Theorems
import S3Cpp.Aws.S3.Client.ListObjects.Rendering
import S3Cpp.Aws.S3.Client.ListObjects.Theorems
import S3Cpp.Aws.S3.Client.Requests.Theorems
import S3Cpp.Aws.S3.DnsCache.Recovery
import S3Cpp.Aws.S3.DnsCache.WaitFree
import S3Cpp.Aws.S3.Exchange.Linearizability
import S3Cpp.Aws.S3.PrepareRequest.Tampering
import S3Cpp.Aws.S3.PrepareRequest.Theorems
import S3Cpp.Aws.S3.Session.Theorems
import S3Cpp.Tools.ListAllObjects.Statistics.Theorems
import S3Cpp.Tools.ListAllObjects.Worker.MissingFields
import S3Cpp.Tools.ListAllObjects.Worker.Records
import S3Cpp.Tools.ListAllObjects.WorkerManager.Attempts
import S3Cpp.Tools.ListAllObjects.WorkerManager.BreadthFirst
import S3Cpp.Tools.ListAllObjects.WorkerManager.Changes
import S3Cpp.Tools.ListAllObjects.WorkerManager.Completeness
import S3Cpp.Tools.ListAllObjects.WorkerManager.Completion
import S3Cpp.Tools.ListAllObjects.WorkerManager.Destructor
import S3Cpp.Tools.ListAllObjects.WorkerManager.Liveness
import S3Cpp.Tools.ListAllObjects.WorkerManager.Losses
import S3Cpp.Tools.ListAllObjects.WorkerManager.Missing
import S3Cpp.Tools.ListAllObjects.WorkerManager.Overshoot
import S3Cpp.Tools.ListAllObjects.WorkerManager.Pagination
import S3Cpp.Tools.ListAllObjects.WorkerManager.Retries
import S3Cpp.Tools.ListAllObjects.WorkerManager.ScaleDown
import S3Cpp.Tools.ListAllObjects.WorkerManager.Scaling
import S3Cpp.Tools.ListAllObjects.WorkerManager.Shutdown
import S3Cpp.Tools.ListAllObjects.WorkerManager.Stall
import S3Cpp.Tools.ListAllObjects.WorkerManager.Termination
import S3Cpp.Tools.ListAllObjects.WorkerManager.WriteErrors
