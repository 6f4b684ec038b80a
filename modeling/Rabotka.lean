import Rabotka.Money.Deposits
import Rabotka.Money.Ledger
import Rabotka.Money.Income
import Rabotka.Billing.Status
import Rabotka.Hiring.Closing
import Rabotka.Missions.RatingRuns
import Rabotka.Subscriptions.Upgrades
import Rabotka.Quotas.Units
import Rabotka.Payouts.Safety
import Rabotka.Events.Reschedule
import Rabotka.Referrals.Exactness
import Rabotka.Inbound.Once
import Rabotka.OAuth.Grants
import Rabotka.Delivery.Calls
import Rabotka.Interviews.Answers
import Rabotka.Chat.DailyCap
import Rabotka.Ads.Review
import Rabotka.Ads.Pressure
import Rabotka.Callbacks.Trust
import Rabotka.Offers.Paging
import Rabotka.Interests.Learning
import Rabotka.Interests.Unseen
import Rabotka.Publishing.Charges
import Rabotka.Applying.Limits
import Rabotka.Archive.Ledger
import Rabotka.Archive.Files
import Rabotka.Expander.Overlaps
import Rabotka.Moderation.Withheld
import Rabotka.Subscriptions.Reminders
import Rabotka.AdminCache.Freshness
import Rabotka.Notifying.Heard
import Rabotka.Unlocking.Failure
import Rabotka.Ranking.Relevance
import Rabotka.Ranking.Selection
import Rabotka.Ranking.Fusion
import Rabotka.Cancelling.Suspension
import Rabotka.Questions.Answers
import Rabotka.Outbound.Chunking
import Rabotka.Outbound.LoginLinks
import Rabotka.Identity.NameMatch
import Rabotka.AdminCache.Keys
import Rabotka.Throttling.Storage
import Rabotka.Storage.RoundTrip
import Rabotka.Outbound.TemplateRule
import Rabotka.Collaboration.Strongest
import Rabotka.Assistant.Daily
import Rabotka.Ads.Counters
import Rabotka.Board.Columns
import Rabotka.Screening.Experience
import Rabotka.Offers.Archiving
import Rabotka.Referrals.Codes
import Rabotka.Invoices.Bytes
import Rabotka.Breaker.Bursts
import Rabotka.Mailbox.Tokens
import Rabotka.Notifying.Announced
import Rabotka.Llm.Reserve
import Rabotka.Webhooks.Spellings
import Rabotka.Business.Chart
import Rabotka.Onboarding.Timeline
