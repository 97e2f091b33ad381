import MacZfs.Acl.RoundTrip
import MacZfs.Acl.Trivial
import MacZfs.Avl.Runs
import MacZfs.Cache.Reads
import MacZfs.Deleg.Grants
import MacZfs.Dnode.FreeRange
import MacZfs.Dnode.NewBlkid
import MacZfs.Dsl.Promote
import MacZfs.Dsl.Quota
import MacZfs.Dsl.Unique
import MacZfs.Errlog.Reports
import MacZfs.Fletcher
import MacZfs.Gang.RoundTrip
import MacZfs.History.Get
import MacZfs.Label.Ring
import MacZfs.Lzjb.Reads
import MacZfs.Metaslab.FirstFit
import MacZfs.Metaslab.Undo
import MacZfs.Mirror.Read
import MacZfs.Namecheck
import MacZfs.NextNvpair
import MacZfs.Raidz.Erased
import MacZfs.Raidz.Stored
import MacZfs.Raidz.Tables
import MacZfs.Recv.FreeObjects
import MacZfs.Recv.Safety
import MacZfs.Rlock.Runs
import MacZfs.SpaceMap.Calls
import MacZfs.Traverse.Complete
import MacZfs.Txg.Safety
import MacZfs.Zap.Table
import MacZfs.Zil.Safety
