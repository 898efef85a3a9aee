import XrdBlackhole.OpenFlag
import XrdBlackhole.OpenResult
import XrdBlackhole.OpenWindow
import XrdBlackhole.AioClose
import XrdBlackhole.RandomContent
import XrdBlackhole.Accounting
import XrdBlackhole.RoundTrip
import XrdBlackhole.StubIdentity
import XrdBlackhole.ReadableSize
import XrdBlackhole.FstatRead
import XrdBlackhole.UpdateSession
import XrdBlackhole.OssDir
import XrdBlackhole.Errors
import XrdBlackhole.Metrics
import XrdBlackhole.SeedSize
import XrdBlackhole.SeedPath
import XrdBlackhole.SeedReject
import XrdBlackhole.Listing
import XrdBlackhole.Defaults
import XrdBlackhole.ReadEntries
import XrdBlackhole.OssSpace
import XrdBlackhole.Rename
import XrdBlackhole.NumberTokens
import XrdBlackhole.StatFstat
import XrdBlackhole.FsThreads
import XrdBlackhole.LockedStats
import XrdBlackhole.HandleThreads
import XrdBlackhole.Configured
import XrdBlackhole.StoreRefines
import XrdBlackhole.MetricsBody
import XrdBlackhole.NumberedListing
import XrdBlackhole.Isolation
import XrdBlackhole.IsolatedThreads
