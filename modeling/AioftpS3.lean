import AioftpS3.PosixPath
import AioftpS3.Lock.Queue
import AioftpS3.Lock.Acquire
import AioftpS3.Lock.PathLock
import AioftpS3.Lock.Scopes
import AioftpS3.Lock.Safety
import AioftpS3.Upload.Session
import AioftpS3.Upload.Completion
import AioftpS3.Upload.InFlight
import AioftpS3.Upload.Progress
import AioftpS3.Bucket.S3
import AioftpS3.Bucket.Listing
import AioftpS3.Bucket.Rmdir
import AioftpS3.Bucket.Facade
import AioftpS3.Bucket.View
import AioftpS3.Bucket.StatPath
import AioftpS3.Bucket.Requests
import AioftpS3.Bucket.Exec
import AioftpS3.Bucket.Concurrent
import AioftpS3.Bucket.Exclusion
import AioftpS3.Bucket.Progress
import AioftpS3.Request.Dict
import AioftpS3.Request.Signer
import AioftpS3.Request.Url
